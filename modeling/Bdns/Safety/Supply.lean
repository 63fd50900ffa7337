import Bdns.Blockchain.Coins
import Bdns.Network.Node

/-!
# The supply of coins

Coins are on accounts, in stakes and in the unstake queue. Validation keeps shadows of balances
and stakes while it reads a block; application moves the real ones in separate passes.
`Covered` relates the two after every prefix of a block: the shadow balances are covered by the
real ones, and fees, accounts, queue and stakes never exceed what was there before the block.
The shadow of a stake may be larger than the stake, so the stakes are counted in a third map
that is as large as both. What the leader is credited is the sum of all fees, also of those
transactions from which no fee is taken.
-/

namespace Bdns.Safety

open Lib Blockchain Network Validation

/-- The coins on accounts, in stakes and in the queue. -/
def coins (ledger : BalanceLedger) (s : StakeState) : Nat :=
  ledger.supply + s.stakeMap.staked + s.unstakeQueue.queued

/-- The fees of the transactions that have a sender to take them from. -/
def signedFees (txs : List Transaction) : Nat :=
  ((txs.filter fun tx => 0 < tx.ownerKey.length).map fun tx => tx.fee.toNat).sum

theorem signedFees_concat (txs : List Transaction) (tx : Transaction) :
    signedFees (txs ++ [tx]) =
      signedFees txs + if tx.ownerKey.length = 0 then 0 else tx.fee.toNat := by
  by_cases h : tx.ownerKey = [] <;> simp [signedFees, h, List.length_pos_iff]

/-- The coins that the STAKE transactions of a list move from accounts to stakes. -/
def bondedBy (txs : List Transaction) : Nat := (txs.map bonded).sum

theorem bondedBy_concat (txs : List Transaction) (tx : Transaction) :
    bondedBy (txs ++ [tx]) = bondedBy txs + bonded tx := by
  simp [bondedBy]

/-! ## Shadows and the real state -/

theorem runningStake_update (V : Validation) (sh : CoinShadow) (k v : Bytes) (x : UInt64) :
    V.runningStake { sh with stake := Function.update sh.stake k (some x) } v =
      if v = k then x else V.runningStake sh v := by
  unfold runningStake
  by_cases h : v = k
  · subst h
    simp
  · simp [h]

/-- A slash only lowers the shadow of a stake. -/
theorem runningStake_slashShadow_le (V : Validation) (sh : CoinShadow) (offenderHex v : Bytes) :
    (V.runningStake (V.slashShadow sh offenderHex) v).toNat ≤ (V.runningStake sh v).toNat := by
  unfold slashShadow
  dsimp only
  split
  · rename_i hLe
    rw [runningStake_update]
    split
    · rename_i hv
      rw [hv, UInt64.toNat_sub_of_le _ _ hLe]
      exact Nat.sub_le _ _
    · exact Nat.le_refl _
  · refine Nat.le_trans (Nat.le_of_eq (congrArg UInt64.toNat (runningStake_update V _ _ v _))) ?_
    split
    · exact Nat.zero_le _
    · exact Nat.le_refl _

/-- Stakes that are as large as the real ones and as their shadows. -/
structure Bounds (V : Validation) (sh : CoinShadow) (s : StakeState) (bound : StakeMap) : Prop where
  stake : ∀ v, (s.stakeMap.getStake v).toNat ≤ (bound.getStake v).toNat
  shadow : ∀ v, (V.runningStake sh v).toNat ≤ (bound.getStake v).toNat

/-- After a prefix of a block: the shadows of validation against the passes of application. -/
structure Covered (V : Validation) (before : List Transaction) (sh : CoinShadow)
    (acc : BalanceLedger × StakeState) : Prop where
  balance : ∀ k, (V.runningBalance sh k).toNat ≤ (acc.1.getBalance k).toNat
  /-- Accounts have paid fees and stakes, and nothing else. -/
  paid : acc.1.supply + signedFees before + bondedBy before = V.ledger.supply
  stakes : ∃ bound, Bounds V sh acc.2 bound ∧ bound.staked + acc.2.unstakeQueue.queued ≤
    V.stakeMap.staked + V.unstakeQueue.queued + bondedBy before

/-- The supply before the block fits in 64 bits. -/
def Fits (V : Validation) : Prop :=
  V.ledger.supply + V.stakeMap.staked + V.unstakeQueue.queued < 2 ^ 64

section Step

variable {V : Validation} {before : List Transaction} {tx : Transaction} {sh mid : CoinShadow}
  {acc : BalanceLedger × StakeState}

theorem covered_init (V : Validation) (slot : UInt64) :
    Covered V [] {} (V.ledger, ⟨V.stakeMap, (V.unstakeQueue.sweepMature slot).1,
      V.slashedEvidence⟩) where
  balance := fun _ => Nat.le_refl _
  paid := by simp [signedFees, bondedBy]
  stakes := ⟨V.stakeMap, ⟨fun _ => Nat.le_refl _, fun _ => Nat.le_refl _⟩,
    Nat.add_le_add_left (V.unstakeQueue.queued_sweepMature_le slot) _⟩

theorem Covered.total (h : Covered V before sh acc) :
    coins acc.1 acc.2 + signedFees before ≤
      V.ledger.supply + V.stakeMap.staked + V.unstakeQueue.queued := by
  obtain ⟨bound, hBounds, hTotal⟩ := h.stakes
  have hStaked := StakeMap.staked_mono hBounds.stake
  have hPaid := h.paid
  unfold coins
  omega

/-! ## One transaction -/

theorem bounds_stake {s : StakeState} {bound : StakeMap} (h : Bounds V sh s bound)
    (hFit : bound.staked + tx.stakeAmount.toNat < 2 ^ 64) :
    Bounds V { sh with
        stake := Function.update sh.stake (hexEncode tx.ownerKey)
          (some (V.runningStake sh (hexEncode tx.ownerKey) + tx.stakeAmount)) }
      { s with stakeMap := s.stakeMap.addStake (hexEncode tx.ownerKey) tx.stakeAmount }
      (bound.addStake (hexEncode tx.ownerKey) tx.stakeAmount) := by
  have hBound : (bound.getStake (hexEncode tx.ownerKey) + tx.stakeAmount).toNat =
      (bound.getStake (hexEncode tx.ownerKey)).toNat + tx.stakeAmount.toNat := by
    rw [UInt64.toNat_add]
    have := bound.getStake_le_staked (hexEncode tx.ownerKey)
    exact Nat.mod_eq_of_lt (by omega)
  have hAdd : ∀ a : UInt64, (a + tx.stakeAmount).toNat ≤ a.toNat + tx.stakeAmount.toNat := by
    intro a
    rw [UInt64.toNat_add]
    exact Nat.mod_le _ _
  constructor
  · intro v
    rw [StakeMap.getStake_addStake, StakeMap.getStake_addStake]
    split
    · exact hBound ▸ Nat.le_trans (hAdd _) (Nat.add_le_add_right (h.stake _) _)
    · exact h.stake v
  · intro v
    rw [runningStake_update, StakeMap.getStake_addStake]
    by_cases hv : v = hexEncode tx.ownerKey
    · rw [if_pos hv, if_pos hv.symm]
      exact hBound ▸ Nat.le_trans (hAdd _) (Nat.add_le_add_right (h.shadow _) _)
    · rw [if_neg hv, if_neg (Ne.symm hv)]
      exact h.shadow v

theorem bounds_unstake {s : StakeState} {bound : StakeMap} (h : Bounds V sh s bound)
    (hCovered : tx.stakeAmount ≤ V.runningStake sh (hexEncode tx.ownerKey))
    (queue : UnstakeQueue) (pending : Bytes → UInt64) :
    Bounds V { sh with
        stake := Function.update sh.stake (hexEncode tx.ownerKey)
          (some (V.runningStake sh (hexEncode tx.ownerKey) - tx.stakeAmount))
        pendingStake := pending }
      { s with
        stakeMap := s.stakeMap.reduceStake (hexEncode tx.ownerKey) tx.stakeAmount
        unstakeQueue := queue }
      (bound.reduceStake (hexEncode tx.ownerKey) tx.stakeAmount) := by
  have hReduced : ∀ sm : StakeMap,
      ((sm.reduceStake (hexEncode tx.ownerKey) tx.stakeAmount).getStake
        (hexEncode tx.ownerKey)).toNat =
      (sm.getStake (hexEncode tx.ownerKey)).toNat - tx.stakeAmount.toNat := by
    intro sm
    rw [StakeMap.getStake_reduceStake, if_pos rfl]
    split
    · rename_i hLe
      have := UInt64.le_iff_toNat_le.mp hLe
      simp only [UInt64.toNat_zero]
      omega
    · rename_i hLt
      exact UInt64.toNat_sub_of_le _ _ (UInt64.le_of_lt (by simpa using hLt))
  have hOther : ∀ (sm : StakeMap) (v : Bytes), v ≠ hexEncode tx.ownerKey →
      (sm.reduceStake (hexEncode tx.ownerKey) tx.stakeAmount).getStake v = sm.getStake v := by
    intro sm v hv
    rw [StakeMap.getStake_reduceStake, if_neg (Ne.symm hv)]
  constructor
  · intro v
    by_cases hv : v = hexEncode tx.ownerKey
    · rw [hv, hReduced, hReduced]
      exact Nat.sub_le_sub_right (h.stake _) _
    · rw [hOther _ v hv, hOther _ v hv]
      exact h.stake v
  · intro v
    refine Nat.le_trans (Nat.le_of_eq (congrArg UInt64.toNat (runningStake_update V _ _ v _))) ?_
    by_cases hv : v = hexEncode tx.ownerKey
    · rw [if_pos hv, hv, hReduced, UInt64.toNat_sub_of_le _ _ hCovered]
      exact Nat.sub_le_sub_right (h.shadow _) _
    · rw [if_neg hv, hOther _ v hv]
      exact h.shadow v

/-- What the stake pass does with a proof: nothing, or a slash. -/
theorem applyEquivocationProof_cases {E : External} {s : StakeState} {blockA : Block}
    (hDecode : deserializeBlock E tx.equivBlockA = .ok blockA) :
    ∃ s', applyEquivocationProof E tx s = .ok s' ∧
      (s' = s ∨ ∃ evidence, s' =
        { slash (hexEncode blockA.slotLeader) s with slashedEvidence := evidence }) := by
  unfold applyEquivocationProof
  split
  · exact ⟨s, rfl, .inl rfl⟩
  · rw [hDecode]
    by_cases hOld : s.slashedEvidence (offenseKey blockA) = true
    · exact ⟨s, by simp [bind, Except.bind, hOld, pure, Except.pure], .inl rfl⟩
    · refine ⟨_, by simp only [bind, Except.bind, hOld, pure, Except.pure]; rfl,
        .inr ⟨_, rfl⟩⟩

/-- The stake pass of one accepted transaction of a key, with stakes that bound the result. -/
theorem bounds_step {s : StakeState} {bound : StakeMap} (h : Bounds V sh s bound)
    (hFit : bound.staked + bonded tx < 2 ^ 64) (hKey : tx.ownerKey.length ≠ 0)
    (hStep : StakeStep V sh tx mid) (slot : Int64) :
    ∃ s' bound', applyStakeMutations V.E slot tx s = .ok s' ∧ Bounds V mid s' bound' ∧
      bound'.staked + s'.unstakeQueue.queued ≤
        bound.staked + s.unstakeQueue.queued + bonded tx := by
  unfold applyStakeMutations
  rw [if_neg hKey]
  cases hStep with
  | stake hType _ =>
    have hBonded : bonded tx = tx.stakeAmount.toNat := by simp [bonded, hType]
    have hAdd := bound.staked_addStake_le (hexEncode tx.ownerKey) tx.stakeAmount
    rw [hBonded] at hFit
    refine ⟨_, _, by rw [hType]; rfl, bounds_stake h hFit, ?_⟩
    dsimp only
    omega
  | unstake hType hCovered =>
    have hReduced := bound.staked_reduceStake (hexEncode tx.ownerKey) tx.stakeAmount
    have hShadow := h.shadow (hexEncode tx.ownerKey)
    have hNat := UInt64.le_iff_toNat_le.mp hCovered
    rw [Nat.min_eq_left (by omega)] at hReduced
    have hQueued := s.unstakeQueue.queued_enqueue (hexEncode tx.ownerKey) tx.stakeAmount
      (slot.toUInt64 + unstakeDelaySlots)
    refine ⟨_, _, by rw [hType]; rfl, bounds_unstake h hCovered _ _, ?_⟩
    dsimp only
    omega
  | proof hType blockA blockB hEvidence =>
    obtain ⟨s', hApply, hCases⟩ := applyEquivocationProof_cases (s := s) hEvidence.decodeA
    refine ⟨s', bound, by rw [hType]; exact hApply, ?_, ?_⟩
    · refine ⟨fun v => ?_, fun v => Nat.le_trans
        (runningStake_slashShadow_le V sh (hexEncode blockA.slotLeader) v) (h.shadow v)⟩
      obtain rfl | ⟨evidence, rfl⟩ := hCases
      · exact h.stake v
      · exact Nat.le_trans (getStake_slash_le _ v s) (h.stake v)
    · have hQueued : s'.unstakeQueue.queued ≤ s.unstakeQueue.queued := by
        obtain rfl | ⟨evidence, rfl⟩ := hCases
        · exact Nat.le_refl _
        · exact queued_slash_le _ s
      omega
  | other hStake hUnstake hProof =>
    refine ⟨s, bound, ?_, h, Nat.le_add_right _ _⟩
    split
    · exact absurd (by assumption) hStake
    · exact absurd (by assumption) hUnstake
    · exact absurd (by assumption) hProof
    · rfl

/-- Revocations of the slot leader move no coins. -/
theorem Covered.concat_ownerless (h : Covered V before sh acc) (hKey : tx.ownerKey.length = 0)
    (hType : tx.type = .revoke) : Covered V (before ++ [tx]) sh acc := by
  have hBonded : bonded tx = 0 := by simp [bonded, hType]
  refine ⟨h.balance, ?_, ?_⟩
  · rw [signedFees_concat, if_pos hKey, bondedBy_concat, hBonded]
    exact h.paid
  · rw [bondedBy_concat, hBonded]
    exact h.stakes

/-- One accepted transaction: the passes apply it, and the shadows stay covered. -/
theorem Covered.step (hFits : Fits V) {sh sh' : Shadow} (h : Covered V before sh.coins acc)
    (hTx : V.validateTx sh tx = .ok sh') (slot : Int64) :
    ∃ acc', (do
        let ledger ← applyLedgerMutations tx acc.1
        let stakes ← applyStakeMutations V.E slot tx acc.2
        pure (ledger, stakes) : Go (BalanceLedger × StakeState)) = .ok acc' ∧
      Covered V (before ++ [tx]) sh'.coins acc' := by
  obtain ⟨hKey, hType, hCoins⟩ | ⟨hKey, -, -, -, balance, mid, hStep, hCost, hCoins⟩ :=
    coins_of_validateTx hTx
  · refine ⟨acc, ?_, hCoins ▸ h.concat_ownerless hKey hType⟩
    simp [applyLedgerMutations, applyStakeMutations, hKey, pure, Except.pure, bind, Except.bind]
  · have hPaid := h.paid
    have hSender := h.balance (hexEncode tx.ownerKey)
    have hSenderLe := acc.1.getBalance_le_supply (hexEncode tx.ownerKey)
    obtain ⟨bound, hBounds, hTotal⟩ := h.stakes
    unfold Fits at hFits
    obtain ⟨ledger', hLedger, hSupply, hSenderAfter, hOthers⟩ :
        ∃ ledger', applyLedgerMutations tx acc.1 = .ok ledger' ∧ Paid tx acc.1 ledger' :=
      applyLedgerMutations_of_covered (by omega) hKey (by omega)
    obtain ⟨s', bound', hStakes, hBounds', hTotal'⟩ :=
      bounds_step hBounds (by omega) hKey hStep slot
    refine ⟨(ledger', s'), by rw [hLedger, hStakes]; rfl, ?_⟩
    rw [hCoins]
    refine ⟨fun k => ?_, ?_, bound', ⟨hBounds'.stake, hBounds'.shadow⟩, ?_⟩
    · rw [← hCoins]
      have hStepBalance := runningBalance_of_validateTx hTx k
      rw [expense, if_neg hKey] at hStepBalance
      have hBalance := h.balance k
      dsimp only
      split at hStepBalance
      · rename_i hk
        subst hk
        omega
      · rename_i hk
        have := hOthers k hk
        omega
    · rw [signedFees_concat, if_neg hKey, bondedBy_concat]
      dsimp only
      omega
    · rw [bondedBy_concat]
      dsimp only
      omega

end Step

/-! ## A whole block -/

/-- An accepted list of transactions: the leader's pass applies it, and at its end the shadows
are covered. -/
theorem covered_of_run {V : Validation} (hFits : Fits V) {txs : List Transaction} {sh : Shadow}
    (hRun : V.run txs = .ok sh) (slot : Int64) :
    ∃ acc, leaderPass V.E slot txs (V.ledger, openStakes
        ⟨V.stakeMap, V.unstakeQueue, V.slashedEvidence⟩ slot) = .ok acc ∧
      Covered V txs sh.coins acc :=
  foldlM_simulation (fun before (sh : Shadow) acc => Covered V before sh.coins acc)
    (fun _ _ _ _ _ _ h hTx => h.step hFits hTx slot) (covered_init V slot.toUInt64) hRun

section Block

variable {env : Env} {order : JournalOrder} {s : ChainState} {newBlock oldBlock : Block}
  {slotLeaderKey : Bytes} {staged : Staged}

/-- An accepted block: senders have paid their fees exactly, and the supply after it exceeds
the supply before it at most by what the leader was credited beyond these fees. -/
theorem coins_after_block
    (hAccepted : validateBlock env order s newBlock oldBlock slotLeaderKey = .ok staged)
    (hFits : coins s.ledger s.stakes < 2 ^ 64) :
    ∃ ledger₁, ledgerPass newBlock.transactions s.ledger = .ok ledger₁ ∧
      ledger₁.supply + signedFees newBlock.transactions + bondedBy newBlock.transactions =
        s.ledger.supply ∧
      coins staged.ledger staged.stakes + signedFees newBlock.transactions ≤
        coins s.ledger s.stakes + (totalFees newBlock.transactions).toNat := by
  obtain ⟨-, ⟨sh, hRun⟩, ⟨ledger, st, hLedger, hDomain, hStaged, -, -⟩, hStakes⟩ :=
    validateBlock_eq_ok hAccepted
  obtain ⟨⟨ledger₁, s₁⟩, hPass, hCovered⟩ :=
    covered_of_run (V := blockValidation env s newBlock) hFits hRun newBlock.slotNumber
  obtain ⟨hLedger₁, hStakes₁⟩ := leaderPass_eq_ok.mp hPass
  obtain rfl : ledger = ledger₁ := Except.ok.inj (hLedger.symm.trans hLedger₁)
  obtain rfl : staged.stakes = s₁ := Except.ok.inj (hStakes.symm.trans hStakes₁)
  refine ⟨ledger, hLedger, hCovered.paid, ?_⟩
  have hTotal : coins ledger staged.stakes + signedFees newBlock.transactions ≤
      coins s.ledger s.stakes := hCovered.total
  have hDomainLe := supply_domainPass_le hDomain
  have hCredit := supply_creditFees_le newBlock.transactions newBlock.slotLeader ledger
  unfold coins at hTotal ⊢
  rw [hStaged]
  dsimp only at hDomainLe
  omega

theorem toNat_totalFees_le (txs : List Transaction) :
    (totalFees txs).toNat ≤ (txs.map fun tx => tx.fee.toNat).sum := by
  induction txs using List.reverseRecOn with
  | nil => exact Nat.le_refl _
  | append_singleton txs tx ih =>
    have hAdd : totalFees (txs ++ [tx]) = totalFees txs + tx.fee := by simp [totalFees]
    rw [hAdd, UInt64.toNat_add, List.map_append, List.sum_append]
    refine Nat.le_trans (Nat.mod_le _ _) (Nat.add_le_add ih ?_)
    simp

/-- Where the leader's own revocations carry no fee, no coin is created. -/
theorem coins_le_of_free_revocations
    (hAccepted : validateBlock env order s newBlock oldBlock slotLeaderKey = .ok staged)
    (hFits : coins s.ledger s.stakes < 2 ^ 64)
    (hFree : ∀ tx ∈ newBlock.transactions, tx.ownerKey.length = 0 → tx.fee = 0) :
    coins staged.ledger staged.stakes ≤ coins s.ledger s.stakes := by
  obtain ⟨ledger₁, -, -, hCoins⟩ := coins_after_block hAccepted hFits
  have hSigned : ∀ txs : List Transaction, (∀ tx ∈ txs, tx.ownerKey.length = 0 → tx.fee = 0) →
      (txs.map fun tx => tx.fee.toNat).sum = signedFees txs := by
    intro txs hFree
    induction txs using List.reverseRecOn with
    | nil => rfl
    | append_singleton txs tx ih =>
      rw [signedFees_concat, List.map_append, List.sum_append,
        ih fun tx' hMem => hFree tx' (List.mem_append_left _ hMem)]
      split
      · rename_i hKey
        simp [hFree tx (by simp) hKey]
      · simp
  have hFees := toNat_totalFees_le newBlock.transactions
  rw [hSigned _ hFree] at hFees
  omega

/-- No coin is created by an accepted block, and the leader is credited no more than senders
paid, exactly where the `uint64` sum of all fees is at most the sum of the signed ones. -/
theorem coins_le_iff_totalFees_le
    (hAccepted : validateBlock env order s newBlock oldBlock slotLeaderKey = .ok staged)
    (hFits : coins s.ledger s.stakes < 2 ^ 64) :
    ∃ ledger₁, ledgerPass newBlock.transactions s.ledger = .ok ledger₁ ∧
      (coins staged.ledger staged.stakes ≤ coins s.ledger s.stakes ∧
          (totalFees newBlock.transactions).toNat ≤
            s.ledger.supply - ledger₁.supply - bondedBy newBlock.transactions ↔
        (totalFees newBlock.transactions).toNat ≤ signedFees newBlock.transactions) := by
  obtain ⟨ledger₁, hLedger, hPaid, hCoins⟩ := coins_after_block hAccepted hFits
  refine ⟨ledger₁, hLedger, ?_⟩
  constructor
  · rintro ⟨-, hCredited⟩
    omega
  · intro hFees
    constructor <;> omega

end Block

/-! ## A revocation that pays the leader -/

def supplyEnv : Env where
  E := .standIn fun _ => none
  trustedRegistries := [utf8 "registry"]
  slotsPerDay := 8640

/-- A node whose index holds one domain, past its expiry slot. -/
def supplyNode : Node :=
  { StandIn.genesis supplyEnv (utf8 "registry") with
    state := { genesisState supplyEnv with
      index := Index.IndexManager.add supplyEnv.E {} (utf8 "a.bdns")
        { tid := 7, type := .reveal, domainName := utf8 "a.bdns", expirySlot := 1 } 0 0 8640 } }

def supplyGenesis : Block :=
  (supplyNode.blockchain.getLatestBlock).getD
    { index := 0, slotNumber := 0, slotLeader := [], transactions := [], prevHash := [] }

/-- A block with one transaction: the leader revokes the domain, with a fee. -/
def supplyBlock (fee : UInt64) : Block :=
  StandIn.sealed supplyEnv (StandIn.leader (utf8 "registry") 5) 2
    [StandIn.signAs (utf8 "registry")
      { tid := 8, type := .revoke, domainName := utf8 "a.bdns", redeemsTxID := 7, fee }]
    supplyNode

theorem coins_le_iff_totalFees_le_free :
    ∃ staged, validateBlock supplyEnv (.ascending _ _) supplyNode.state (supplyBlock 0)
        supplyGenesis (utf8 "registry") = .ok staged ∧
      coins supplyNode.state.ledger supplyNode.state.stakes < 2 ^ 64 ∧
      ∃ ledger₁, ledgerPass (supplyBlock 0).transactions supplyNode.state.ledger = .ok ledger₁ ∧
        (coins staged.ledger staged.stakes ≤
              coins supplyNode.state.ledger supplyNode.state.stakes ∧
            (totalFees (supplyBlock 0).transactions).toNat ≤
              supplyNode.state.ledger.supply - ledger₁.supply -
                bondedBy (supplyBlock 0).transactions ↔
          (totalFees (supplyBlock 0).transactions).toNat ≤
            signedFees (supplyBlock 0).transactions) := by
  obtain ⟨staged, hAccepted⟩ := exists_eq_ok (by decide +kernel :
    (validateBlock supplyEnv (.ascending _ _) supplyNode.state (supplyBlock 0)
      supplyGenesis (utf8 "registry")).isOk = true)
  have hFits : coins supplyNode.state.ledger supplyNode.state.stakes < 2 ^ 64 := by
    decide +kernel
  exact ⟨staged, hAccepted, hFits, coins_le_iff_totalFees_le hAccepted hFits⟩

/-- Nobody pays the fee of 5 coins that the leader is credited. -/
theorem coins_grow_with_paid_revocation :
    ∃ staged, validateBlock supplyEnv (.ascending _ _) supplyNode.state (supplyBlock 5)
        supplyGenesis (utf8 "registry") = .ok staged ∧
      coins supplyNode.state.ledger supplyNode.state.stakes = 1000000 ∧
      coins staged.ledger staged.stakes = 1000005 := by
  obtain ⟨staged, hAccepted⟩ := exists_eq_ok (by decide +kernel :
    (validateBlock supplyEnv (.ascending _ _) supplyNode.state (supplyBlock 5)
      supplyGenesis (utf8 "registry")).isOk = true)
  have hAfter : ((validateBlock supplyEnv (.ascending _ _) supplyNode.state (supplyBlock 5)
      supplyGenesis (utf8 "registry")).toOption.map fun staged =>
        coins staged.ledger staged.stakes) = some 1000005 := by
    decide +kernel
  rw [hAccepted] at hAfter
  exact ⟨staged, hAccepted, by decide +kernel, Option.some.inj hAfter⟩

end Bdns.Safety
