import Bdns.Safety.Slashing
import Bdns.Safety.Supply

/-!
# The stakes that validation counts

Validation follows the stakes of a list of transactions in shadow maps: the stake of a validator,
the coins that it has unstaked in the list, and the coins that slashes have burned from the queue.
Application changes the stake map and the queue itself, after matured entries have left it.

A slash that reaches the queue takes the coins unstaked in the list twice, once as burned and once
as no longer pending. So the two counts agree while no proof follows an UNSTAKE of its offender,
and no longer.
-/

namespace Bdns.Safety

open Lib Blockchain Validation

/-! ## Both counts -/

/-- The queued coins of a validator, as validation counts them. -/
def queuePart (V : Validation) (sh : CoinShadow) (v : Bytes) : UInt64 :=
  V.unstakeQueue.getPendingStake v + sh.pendingStake v - sh.queueBurn v

/-- Validation and application count the same stakes and the same slashable coins. -/
structure Agrees (V : Validation) (sh : CoinShadow) (s : StakeState) : Prop where
  stake : ∀ v, V.runningStake sh v = s.stakeMap.getStake v
  slashable : ∀ v, V.runningStake sh v + queuePart V sh v =
    s.stakeMap.getStake v + s.unstakeQueue.getPendingStake v

/-- The state in which the stake pass starts. -/
def openedStakes (V : Validation) : StakeState :=
  openStakes ⟨V.stakeMap, V.unstakeQueue, V.slashedEvidence⟩ V.currentSlot

/-- One accepted transaction of a key in both counts. -/
inductive BothStep (V : Validation) (slot : Int64) (sh : CoinShadow) (s : StakeState)
    (tx : Transaction) : CoinShadow → StakeState → Prop
  | stake (hType : tx.type = .stake) :
      BothStep V slot sh s tx
        { sh with
          stake := Function.update sh.stake (hexEncode tx.ownerKey)
            (some (V.runningStake sh (hexEncode tx.ownerKey) + tx.stakeAmount)) }
        { s with stakeMap := s.stakeMap.addStake (hexEncode tx.ownerKey) tx.stakeAmount }
  | unstake (hType : tx.type = .unstake)
      (hCovered : tx.stakeAmount ≤ V.runningStake sh (hexEncode tx.ownerKey)) :
      BothStep V slot sh s tx
        { sh with
          stake := Function.update sh.stake (hexEncode tx.ownerKey)
            (some (V.runningStake sh (hexEncode tx.ownerKey) - tx.stakeAmount))
          pendingStake := Function.update sh.pendingStake (hexEncode tx.ownerKey)
            (sh.pendingStake (hexEncode tx.ownerKey) + tx.stakeAmount) }
        { s with
          stakeMap := s.stakeMap.reduceStake (hexEncode tx.ownerKey) tx.stakeAmount
          unstakeQueue := s.unstakeQueue.enqueue (hexEncode tx.ownerKey) tx.stakeAmount
            (slot.toUInt64 + unstakeDelaySlots) }
  | proof (hType : tx.type = .equivocationProof) (blockA : Block)
      (hDecode : deserializeBlock V.E tx.equivBlockA = .ok blockA) :
      BothStep V slot sh s tx
        { V.slashShadow sh (hexEncode blockA.slotLeader) with
          equivocations := Function.update sh.equivocations (offenseKey blockA) true }
        { slash (hexEncode blockA.slotLeader) s with
          slashedEvidence := Function.update s.slashedEvidence (offenseKey blockA) true }
  | other (hStake : tx.type ≠ .stake) (hUnstake : tx.type ≠ .unstake)
      (hProof : tx.type ≠ .equivocationProof) : BothStep V slot sh s tx sh s

/-- The offences known to application are those known to validation. -/
def SameEvidence (V : Validation) (sh : CoinShadow) (s : StakeState) : Prop :=
  ∀ key, s.slashedEvidence key = (V.slashedEvidence key || sh.equivocations key)

section Step

variable {V : Validation} {slot : Int64} {sh sh' : CoinShadow} {s s' : StakeState}
  {tx : Transaction} {before : List Transaction}

theorem equivocations_slashShadow (V : Validation) (sh : CoinShadow) (offenderHex : Bytes) :
    (V.slashShadow sh offenderHex).equivocations = sh.equivocations := by
  unfold slashShadow
  dsimp only
  split <;> rfl

/-- A proof whose offence is new slashes. -/
theorem applyEquivocationProof_of_fresh {E : External} {blockA : Block}
    (hNonempty : tx.equivBlockA ≠ []) (hDecode : deserializeBlock E tx.equivBlockA = .ok blockA)
    (hFresh : s.slashedEvidence (offenseKey blockA) = false) :
    applyEquivocationProof E tx s = .ok { slash (hexEncode blockA.slotLeader) s with
      slashedEvidence := Function.update s.slashedEvidence (offenseKey blockA) true } := by
  unfold applyEquivocationProof
  rw [if_neg fun hNil => hNonempty (List.length_eq_zero_iff.mp hNil), hDecode]
  simp only [bind, Except.bind, hFresh, Bool.false_eq_true, if_false, slashedEvidence_slash]
  rfl

theorem bothStep_of_stakeStep {mid : CoinShadow} (hEvidence : SameEvidence V sh s)
    (hKey : tx.ownerKey.length ≠ 0) (hStep : StakeStep V sh tx mid) :
    ∃ s', applyStakeMutations V.E slot tx s = .ok s' ∧ BothStep V slot sh s tx mid s' := by
  unfold applyStakeMutations
  rw [if_neg hKey]
  cases hStep with
  | stake hType _ => exact ⟨_, by rw [hType]; rfl, .stake hType⟩
  | unstake hType hCovered => exact ⟨_, by rw [hType]; rfl, .unstake hType hCovered⟩
  | proof hType blockA blockB hSeen =>
    have hFresh : s.slashedEvidence (offenseKey blockA) = false := by
      rw [hEvidence, hSeen.unpunished, hSeen.fresh]
      rfl
    have hApply := applyEquivocationProof_of_fresh hSeen.nonempty hSeen.decodeA hFresh
    refine ⟨_, by rw [hType]; exact hApply, ?_⟩
    rw [equivocations_slashShadow]
    exact .proof hType blockA hSeen.decodeA
  | other hStake hUnstake hProof =>
    refine ⟨s, ?_, .other hStake hUnstake hProof⟩
    split
    · exact absurd (by assumption) hStake
    · exact absurd (by assumption) hUnstake
    · exact absurd (by assumption) hProof
    · rfl

/-- One accepted transaction, with or without a key. -/
theorem bothStep_of_validateTx {sh sh' : Shadow} (hEvidence : SameEvidence V sh.coins s)
    (hTx : V.validateTx sh tx = .ok sh') :
    ∃ mid s' nonce balance, applyStakeMutations V.E slot tx s = .ok s' ∧
      BothStep V slot sh.coins s tx mid s' ∧ sh'.coins = { mid with nonce, balance } := by
  obtain ⟨hKey, hType, hCoins⟩ | ⟨hKey, -, -, -, balance, mid, hStep, -, hCoins⟩ :=
    coins_of_validateTx hTx
  · refine ⟨sh.coins, s, sh.coins.nonce, sh.coins.balance, ?_, ?_, hCoins⟩
    · simp [applyStakeMutations, hKey, pure, Except.pure]
    · exact .other (by simp [hType]) (by simp [hType]) (by simp [hType])
  · obtain ⟨s', hApply, hBoth⟩ := bothStep_of_stakeStep hEvidence hKey hStep
    exact ⟨mid, s', _, _, hApply, hBoth, hCoins⟩

theorem BothStep.sameEvidence (hStep : BothStep V slot sh s tx sh' s')
    (hEvidence : SameEvidence V sh s) : SameEvidence V sh' s' := by
  cases hStep with
  | stake hType => exact hEvidence
  | unstake hType hCovered => exact hEvidence
  | proof hType blockA hDecode =>
    intro key
    by_cases hKey : key = offenseKey blockA
    · simp [hKey]
    · simpa [Function.update_of_ne hKey] using hEvidence key
  | other hStake hUnstake hProof => exact hEvidence

end Step

/-! ## A slash in both counts -/

section Slash

variable (V : Validation) (sh : CoinShadow) (offenderHex v : Bytes)

/-- The slash takes the whole stake, unless the sum of stake and queue has wrapped around. -/
theorem runningStake_slashShadow :
    V.runningStake (V.slashShadow sh offenderHex) v =
      if offenderHex = v then
        if V.runningStake sh v + queuePart V sh v ≤ V.runningStake sh v then
          V.runningStake sh v - (V.runningStake sh v + queuePart V sh v)
        else 0
      else V.runningStake sh v := by
  unfold slashShadow queuePart
  simp only [computeSlashAmount_slashingPercent]
  by_cases hv : offenderHex = v
  · subst hv
    split <;> simp [runningStake]
  · rw [if_neg hv]
    split <;> simp [runningStake, Ne.symm hv]

/-- What reaches the queue is burned. -/
theorem queueBurn_slashShadow :
    (V.slashShadow sh offenderHex).queueBurn v =
      if offenderHex = v ∧ ¬ V.runningStake sh v + queuePart V sh v ≤ V.runningStake sh v then
        sh.queueBurn v + queuePart V sh v
      else sh.queueBurn v := by
  unfold slashShadow queuePart
  simp only [computeSlashAmount_slashingPercent]
  by_cases hv : offenderHex = v
  · subst hv
    split
    · rename_i hLe
      rw [if_neg fun h => h.2 hLe]
    · rename_i hLt
      simp only [hLt, not_false_eq_true, and_self, if_true, Function.update_self]
      grind
  · split <;> simp [hv, Ne.symm hv]

/-- What reaches the queue is also taken from the coins unstaked in the list. -/
theorem pendingStake_slashShadow :
    (V.slashShadow sh offenderHex).pendingStake v =
      if offenderHex = v ∧ ¬ V.runningStake sh v + queuePart V sh v ≤ V.runningStake sh v then
        if queuePart V sh v < sh.pendingStake v then sh.pendingStake v - queuePart V sh v else 0
      else sh.pendingStake v := by
  have hExcess : ∀ a b : UInt64, a + b - a = b := by grind
  unfold slashShadow queuePart
  simp only [computeSlashAmount_slashingPercent, hExcess]
  by_cases hv : offenderHex = v
  · subst hv
    split
    · rename_i hLe
      rw [if_neg fun h => h.2 hLe]
    · rename_i hLt
      simp only [hLt, not_false_eq_true, and_self, if_true, Function.update_self, gt_iff_lt]
  · split <;> simp [hv, Ne.symm hv]

end Slash

/-! ## Proofs and unstaked coins -/

/-- The coins that a validator unstakes in a list, as a `uint64` sum. -/
def unstaked (v : Bytes) (txs : List Transaction) : UInt64 :=
  ((txs.filter fun tx => tx.type = .unstake ∧ hexEncode tx.ownerKey = v).map
    (·.stakeAmount)).sum

theorem unstaked_concat (v : Bytes) (txs : List Transaction) (tx : Transaction) :
    unstaked v (txs ++ [tx]) = unstaked v txs +
      if tx.type = .unstake ∧ hexEncode tx.ownerKey = v then tx.stakeAmount else 0 := by
  by_cases h : tx.type = .unstake ∧ hexEncode tx.ownerKey = v <;> simp [unstaked, h]

/-- No proof comes after an UNSTAKE of its offender. -/
def ProofsFirst (E : External) (txs : List Transaction) : Prop :=
  ∀ before tx after blockA, txs = before ++ tx :: after → tx.type = .equivocationProof →
    deserializeBlock E tx.equivBlockA = .ok blockA →
      unstaked (hexEncode blockA.slotLeader) before = 0

theorem ProofsFirst.of_append {E : External} {before after : List Transaction}
    (h : ProofsFirst E (before ++ after)) : ProofsFirst E before := by
  intro first tx rest blockA hSplit
  exact h first tx (rest ++ after) blockA (by rw [hSplit]; simp)

theorem proofsFirst_of_no_unstake {E : External} {txs : List Transaction}
    (h : ∀ tx ∈ txs, tx.type ≠ .unstake) : ProofsFirst E txs := by
  intro before tx after blockA hSplit _ _
  have hNone : before.filter (fun tx => tx.type = .unstake ∧
      hexEncode tx.ownerKey = hexEncode blockA.slotLeader) = [] := by
    refine List.filter_eq_nil_iff.mpr fun t ht hUnstake => ?_
    exact h t (by simp [hSplit, ht]) (of_decide_eq_true hUnstake).1
  simp only [unstaked, hNone, List.map_nil, List.sum_nil]

/-- The shadows of validation while no proof has come after an UNSTAKE of its offender: the coins
unstaked in the list are all pending, and of the queue before the list either nothing or everything
is burned. -/
structure Orderly (V : Validation) (before : List Transaction) (sh : CoinShadow) : Prop where
  pending : ∀ v, sh.pendingStake v = unstaked v before
  burned : ∀ v, sh.queueBurn v = 0 ∨ sh.queueBurn v = V.unstakeQueue.getPendingStake v

section Orderly

variable {V : Validation} {slot : Int64} {sh sh' : CoinShadow} {s s' : StakeState}
  {tx : Transaction} {before : List Transaction}

theorem orderly_init (V : Validation) : Orderly V [] {} :=
  ⟨fun _ => rfl, fun _ => .inl rfl⟩

/-- A list that ends with a proof, and its offender. -/
theorem ProofsFirst.last {E : External} {blockA : Block} (h : ProofsFirst E (before ++ [tx]))
    (hType : tx.type = .equivocationProof)
    (hDecode : deserializeBlock E tx.equivBlockA = .ok blockA) :
    unstaked (hexEncode blockA.slotLeader) before = 0 :=
  h before tx [] blockA rfl hType hDecode

theorem Orderly.step (h : Orderly V before sh) (hStep : BothStep V slot sh s tx sh' s')
    (hFirst : ProofsFirst V.E (before ++ [tx])) : Orderly V (before ++ [tx]) sh' := by
  cases hStep with
  | stake hType =>
    refine ⟨fun v => ?_, h.burned⟩
    rw [unstaked_concat, if_neg fun hUnstake => by simp [hType] at hUnstake, UInt64.add_zero]
    exact h.pending v
  | unstake hType hCovered =>
    refine ⟨fun v => ?_, h.burned⟩
    rw [unstaked_concat, ← h.pending]
    by_cases hv : hexEncode tx.ownerKey = v
    · subst hv
      simp [hType]
    · simp [hv, Ne.symm hv]
  | proof hType blockA hDecode =>
    have hNone := hFirst.last hType hDecode
    have hSame : ∀ v, unstaked v (before ++ [tx]) = sh.pendingStake v := by
      intro v
      rw [unstaked_concat, if_neg fun hUnstake => by simp [hType] at hUnstake, UInt64.add_zero,
        h.pending]
    refine ⟨fun v => ?_, fun v => ?_⟩
    · rw [hSame]
      change (V.slashShadow sh _).pendingStake v = _
      rw [pendingStake_slashShadow]
      split
      · rename_i hSlashed
        rw [h.pending, ← hSlashed.1, hNone, if_neg UInt64.not_lt_zero]
      · rfl
    · change (V.slashShadow sh _).queueBurn v = 0 ∨ (V.slashShadow sh _).queueBurn v = _
      rw [queueBurn_slashShadow]
      split
      · rename_i hSlashed
        right
        rw [queuePart, h.pending, ← hSlashed.1, hNone]
        grind
      · exact h.burned v
  | other hStake hUnstake hProof =>
    refine ⟨fun v => ?_, h.burned⟩
    rw [unstaked_concat, if_neg fun hType => hUnstake hType.1, UInt64.add_zero]
    exact h.pending v

/-- Before a proof, no more is burned than was in the queue. -/
theorem Orderly.queueBurn_le (h : Orderly V before sh) {v : Bytes} (hNone : unstaked v before = 0) :
    sh.queueBurn v ≤ V.unstakeQueue.getPendingStake v + sh.pendingStake v := by
  rw [h.pending, hNone, UInt64.add_zero]
  rcases h.burned v with hBurned | hBurned <;> rw [hBurned]
  · exact UInt64.zero_le
  · exact UInt64.le_refl _

theorem Agrees.of_queue (hStake : ∀ v, V.runningStake sh v = s.stakeMap.getStake v)
    (hQueue : ∀ v, queuePart V sh v = s.unstakeQueue.getPendingStake v) : Agrees V sh s :=
  ⟨hStake, fun v => by rw [hStake, hQueue]⟩

theorem Agrees.queue (hAgrees : Agrees V sh s) (v : Bytes) :
    queuePart V sh v = s.unstakeQueue.getPendingStake v := by
  have hTotal := hAgrees.slashable v
  rw [hAgrees.stake] at hTotal
  exact (UInt64.add_right_inj _).mp hTotal

/-- Equal stakes stay equal, if a slash leaves equal stakes of the offender. -/
theorem BothStep.stake_eq (hStakes : ∀ v, V.runningStake sh v = s.stakeMap.getStake v)
    (hStep : BothStep V slot sh s tx sh' s')
    (hSlash : ∀ blockA, tx.type = .equivocationProof →
      deserializeBlock V.E tx.equivBlockA = .ok blockA →
        V.runningStake (V.slashShadow sh (hexEncode blockA.slotLeader))
            (hexEncode blockA.slotLeader) =
          (slash (hexEncode blockA.slotLeader) s).stakeMap.getStake (hexEncode blockA.slotLeader))
    (v : Bytes) : V.runningStake sh' v = s'.stakeMap.getStake v := by
  cases hStep with
  | stake hType =>
    rw [runningStake_update, StakeMap.getStake_addStake, hStakes, hStakes]
    simp only [eq_comm]
  | unstake hType hCovered =>
    rw [hStakes] at hCovered
    refine (runningStake_update V _ _ v _).trans ?_
    rw [StakeMap.getStake_reduceStake, hStakes, hStakes]
    by_cases hv : hexEncode tx.ownerKey = v
    · rw [if_pos hv.symm, if_pos hv]
      split
      · rename_i hAll
        rw [UInt64.le_antisymm hCovered hAll, UInt64.sub_self]
      · rfl
    · rw [if_neg (Ne.symm hv), if_neg hv]
  | proof hType blockA hDecode =>
    by_cases hv : hexEncode blockA.slotLeader = v
    · rw [← hv]
      exact hSlash blockA hType hDecode
    · refine (runningStake_slashShadow V sh _ v).trans ?_
      rw [if_neg hv, hStakes]
      exact (getStake_slash_of_ne s hv).symm
  | other hStake hUnstake hProof => exact hStakes v

theorem Agrees.stake_step (hAgrees : Agrees V sh s) (hStep : BothStep V slot sh s tx sh' s')
    (v : Bytes) : V.runningStake sh' v = s'.stakeMap.getStake v := by
  refine hStep.stake_eq hAgrees.stake (fun blockA _ _ => ?_) v
  rw [runningStake_slashShadow, getStake_slash, hAgrees.stake, hAgrees.queue]

theorem Agrees.queue_step (hAgrees : Agrees V sh s) (h : Orderly V before sh)
    (hStep : BothStep V slot sh s tx sh' s') (hFirst : ProofsFirst V.E (before ++ [tx]))
    (v : Bytes) : queuePart V sh' v = s'.unstakeQueue.getPendingStake v := by
  have hQueue := hAgrees.queue v
  cases hStep with
  | stake hType => exact hQueue
  | unstake hType hCovered =>
    rw [UnstakeQueue.getPendingStake_enqueue, ← hQueue]
    unfold queuePart
    dsimp only
    by_cases hv : hexEncode tx.ownerKey = v
    · subst hv
      rw [if_pos rfl, Function.update_self]
      grind
    · rw [if_neg hv, Function.update_of_ne (Ne.symm hv), UInt64.add_zero]
  | proof hType blockA hDecode =>
    refine Eq.trans ?_ (getPendingStake_slash _ v s).symm
    change V.unstakeQueue.getPendingStake v + (V.slashShadow sh _).pendingStake v -
      (V.slashShadow sh _).queueBurn v = _
    rw [pendingStake_slashShadow, queueBurn_slashShadow, hAgrees.stake, hQueue]
    split
    · rename_i hSlashed
      have hNone := hFirst.last hType hDecode
      rw [hSlashed.1, ← h.pending] at hNone
      rw [hNone, if_neg UInt64.not_lt_zero, ← hQueue, queuePart, hNone]
      grind
    · exact hQueue
  | other hStake hUnstake hProof => exact hQueue

/-- While the counts agree, they do so after one more transaction, unless that is a proof after
an UNSTAKE of its offender. -/
theorem Agrees.step (hAgrees : Agrees V sh s) (h : Orderly V before sh)
    (hStep : BothStep V slot sh s tx sh' s') (hFirst : ProofsFirst V.E (before ++ [tx])) :
    Agrees V sh' s' :=
  .of_queue (hAgrees.stake_step hStep) (hAgrees.queue_step h hStep hFirst)

end Orderly

/-! ## Whole lists -/

/-- The entries that mature change no total of a validator. -/
def SameQueue (V : Validation) : Prop :=
  ∀ v, (openedStakes V).unstakeQueue.getPendingStake v = V.unstakeQueue.getPendingStake v

section Runs

variable {V : Validation} {txs before : List Transaction} {sh : Shadow}

/-- An accepted list without a proof after an UNSTAKE of its offender. -/
theorem both_of_run (hRun : V.run txs = .ok sh) (hFirst : ProofsFirst V.E txs) :
    ∃ s, stakePass V.E V.currentSlot txs (openedStakes V) = .ok s ∧ Orderly V txs sh.coins ∧
      SameEvidence V sh.coins s ∧ (SameQueue V → Agrees V sh.coins s) := by
  refine foldlM_simulation (fun before (sh : Shadow) s => Orderly V before sh.coins ∧
    SameEvidence V sh.coins s ∧ (SameQueue V → Agrees V sh.coins s)) ?_ ⟨orderly_init V, ?_, ?_⟩ hRun
  · rintro before tx ⟨after, rfl⟩ sh s sh' ⟨hOrderly, hEvidence, hAgrees⟩ hTx
    obtain ⟨mid, s', nonce, balance, hApply, hStep, hCoins⟩ := bothStep_of_validateTx hEvidence hTx
    have hPrefix := hFirst.of_append
    have hMid := hOrderly.step hStep hPrefix
    refine ⟨s', hApply, ?_⟩
    rw [hCoins]
    refine ⟨⟨hMid.pending, hMid.burned⟩, hStep.sameEvidence hEvidence, fun hQueue => ?_⟩
    have hNext := (hAgrees hQueue).step hOrderly hStep hPrefix
    exact ⟨hNext.stake, hNext.slashable⟩
  · intro key
    simp [openedStakes, openStakes]
  · intro hQueue
    refine .of_queue (fun v => rfl) fun v => ?_
    rw [hQueue]
    simp [queuePart]

/-- The counts agree after every prefix, and the subtraction in the count of queued coins does
not wrap around at any proof. -/
structure Counted (V : Validation) (txs : List Transaction) : Prop where
  agrees : ∀ before, before <+: txs → ∃ sh s, V.run before = .ok sh ∧
    stakePass V.E V.currentSlot before (openedStakes V) = .ok s ∧ Agrees V sh.coins s
  noUnderflow : ∀ before tx after sh blockA, txs = before ++ tx :: after →
    tx.type = .equivocationProof → deserializeBlock V.E tx.equivBlockA = .ok blockA →
    V.run before = .ok sh →
      sh.coins.queueBurn (hexEncode blockA.slotLeader) ≤
        V.unstakeQueue.getPendingStake (hexEncode blockA.slotLeader) +
          sh.coins.pendingStake (hexEncode blockA.slotLeader)

theorem exists_run_of_prefix (hRun : V.run txs = .ok sh) (hPrefix : before <+: txs) :
    ∃ sh₁, V.run before = .ok sh₁ := by
  obtain ⟨after, rfl⟩ := hPrefix
  obtain ⟨sh₁, hBefore, -⟩ := foldlM_append_eq_ok.mp hRun
  exact ⟨sh₁, hBefore⟩

theorem counted_of_proofsFirst (hRun : V.run txs = .ok sh) (hQueue : SameQueue V)
    (hFirst : ProofsFirst V.E txs) : Counted V txs := by
  refine ⟨fun before hPrefix => ?_, ?_⟩
  · obtain ⟨sh₁, hBefore⟩ := exists_run_of_prefix hRun hPrefix
    obtain ⟨after, rfl⟩ := hPrefix
    obtain ⟨s, hPass, -, -, hAgrees⟩ := both_of_run hBefore hFirst.of_append
    exact ⟨sh₁, s, hBefore, hPass, hAgrees hQueue⟩
  · intro before tx after sh₁ blockA hSplit hType hDecode hBefore
    have hNone := hFirst before tx after blockA hSplit hType hDecode
    obtain ⟨-, -, hOrderly, -⟩ := both_of_run hBefore (hSplit ▸ hFirst).of_append
    exact hOrderly.queueBurn_le hNone

/-! ## The condition is necessary -/

theorem sameQueue_of_counted (h : Counted V txs) : SameQueue V := by
  obtain ⟨sh, s, hRun, hPass, hAgrees⟩ := h.agrees [] List.nil_prefix
  obtain rfl : ({} : Shadow) = sh := by simpa [run] using hRun
  obtain rfl : openedStakes V = s := by simpa [stakePass] using hPass
  intro v
  rw [← hAgrees.queue v]
  simp [queuePart]

/-- The coins of a validator in validation come from its stake before the list and from the
stakes of the list. -/
def Held (V : Validation) (before : List Transaction) (sh : CoinShadow) : Prop :=
  ∀ v, (V.runningStake sh v).toNat + (sh.pendingStake v).toNat ≤
    (V.stakeMap.getStake v).toNat + bondedBy before

theorem held_step {tx : Transaction} {sh mid : CoinShadow} (h : Held V before sh)
    (hStep : StakeStep V sh tx mid) : Held V (before ++ [tx]) mid := by
  intro v
  have hv := h v
  rw [bondedBy_concat]
  cases hStep with
  | stake hType _ =>
    rw [runningStake_update]
    split
    · rename_i hOwn
      subst hOwn
      rw [UInt64.toNat_add]
      have := Nat.mod_le ((V.runningStake sh (hexEncode tx.ownerKey)).toNat +
        tx.stakeAmount.toNat) (2 ^ 64)
      simp only [bonded, hType, if_true]
      omega
    · exact Nat.le_trans hv (Nat.add_le_add_left (Nat.le_add_right _ _) _)
  | unstake hType hCovered =>
    by_cases hOwn : v = hexEncode tx.ownerKey
    · subst hOwn
      have hSub := toNat_sub_add hCovered
      have hAdd : (sh.pendingStake (hexEncode tx.ownerKey) + tx.stakeAmount).toNat ≤
          (sh.pendingStake (hexEncode tx.ownerKey)).toNat + tx.stakeAmount.toNat := by
        rw [UInt64.toNat_add]
        exact Nat.mod_le _ _
      simp only [runningStake, Function.update_self, Option.getD_some] at hSub hv ⊢
      omega
    · simp only [runningStake, Function.update_of_ne hOwn] at hv ⊢
      omega
  | proof hType blockA blockB hSeen =>
    have hStake := runningStake_slashShadow_le V sh (hexEncode blockA.slotLeader) v
    have hPending : ((V.slashShadow sh (hexEncode blockA.slotLeader)).pendingStake v).toNat ≤
        (sh.pendingStake v).toNat := by
      rw [pendingStake_slashShadow]
      split
      · split
        · rename_i hLt
          rw [UInt64.toNat_sub_of_le _ _ (UInt64.le_of_lt hLt)]
          exact Nat.sub_le _ _
        · exact Nat.zero_le _
      · exact Nat.le_refl _
    change (V.runningStake (V.slashShadow sh _) v).toNat +
      ((V.slashShadow sh _).pendingStake v).toNat ≤ _
    omega
  | other _ _ _ => omega

theorem held_of_run (hRun : V.run before = .ok sh) : Held V before sh.coins := by
  induction before using List.reverseRecOn generalizing sh with
  | nil =>
    obtain rfl : ({} : Shadow) = sh := by simpa [run] using hRun
    exact fun v => Nat.le_refl _
  | append_singleton before tx ih =>
    obtain ⟨sh₁, hBefore, hTx⟩ := run_concat.mp hRun
    obtain ⟨-, hType, hCoins⟩ | ⟨-, -, -, -, balance, mid, hStep, -, hCoins⟩ :=
      coins_of_validateTx hTx
    · rw [hCoins]
      exact held_step (ih hBefore) (.other (by simp [hType]) (by simp [hType]) (by simp [hType]))
    · have hNext := held_step (ih hBefore) hStep
      rw [hCoins]
      exact hNext

/-- Where the supply fits in 64 bits, so do the coins of a validator in validation. -/
theorem fits_of_run (hFits : Fits V) (hRun : V.run before = .ok sh) (v : Bytes) :
    (V.runningStake sh.coins v).toNat + (sh.coins.pendingStake v).toNat +
      (V.unstakeQueue.getPendingStake v).toNat < 2 ^ 64 := by
  obtain ⟨acc, -, hCovered⟩ := covered_of_run hFits hRun V.currentSlot
  have hHeld := held_of_run hRun v
  have hPaid := hCovered.paid
  have hStaked := V.stakeMap.getStake_le_staked v
  have hQueued := V.unstakeQueue.queuedBy_le_queued v
  have hPending : (V.unstakeQueue.getPendingStake v).toNat ≤ V.unstakeQueue.queuedBy v := by
    rw [UnstakeQueue.getPendingStake_eq, UInt64.toNat_ofNat']
    exact Nat.mod_le _ _
  unfold Fits at hFits
  omega

theorem ProofsFirst.concat {E : External} {tx : Transaction} (h : ProofsFirst E before)
    (hLast : ∀ blockA, tx.type = .equivocationProof →
      deserializeBlock E tx.equivBlockA = .ok blockA →
        unstaked (hexEncode blockA.slotLeader) before = 0) : ProofsFirst E (before ++ [tx]) := by
  intro first t rest blockA hSplit hType hDecode
  cases rest using List.reverseRecOn with
  | nil =>
    obtain ⟨rfl, hTx⟩ := List.append_inj' hSplit rfl
    obtain rfl : tx = t := by simpa using hTx
    exact hLast blockA hType hDecode
  | append_singleton rest last =>
    rw [← List.cons_append, ← List.append_assoc] at hSplit
    obtain ⟨hBefore, -⟩ := List.append_inj' hSplit rfl
    exact h first t rest blockA hBefore hType hDecode

/-- A slash after an UNSTAKE of the offender: validation then counts a queue that is too large by
a wrapped-around subtraction. -/
theorem queuePart_slashShadow {sh : CoinShadow} {v : Bytes} (hOrderly : Orderly V before sh)
    (hFit : (V.runningStake sh v).toNat + (sh.pendingStake v).toNat +
      (V.unstakeQueue.getPendingStake v).toNat < 2 ^ 64)
    (hPending : sh.pendingStake v ≠ 0) :
    ¬ V.runningStake sh v + queuePart V sh v ≤ V.runningStake sh v ∧
      queuePart V (V.slashShadow sh v) v = 0 - sh.pendingStake v := by
  have hPositive : 0 < (sh.pendingStake v).toNat :=
    Nat.pos_of_ne_zero fun hZero => hPending (UInt64.toNat_inj.mp hZero)
  have hSum : (V.unstakeQueue.getPendingStake v + sh.pendingStake v).toNat =
      (V.unstakeQueue.getPendingStake v).toNat + (sh.pendingStake v).toNat := by
    rw [UInt64.toNat_add]
    exact Nat.mod_eq_of_lt (by omega)
  have hBurned : (sh.queueBurn v).toNat ≤ (V.unstakeQueue.getPendingStake v).toNat := by
    rcases hOrderly.burned v with hBurned | hBurned
    · rw [hBurned]
      exact Nat.zero_le _
    · rw [hBurned]
  have hQueue : (queuePart V sh v).toNat + (sh.queueBurn v).toNat =
      (V.unstakeQueue.getPendingStake v).toNat + (sh.pendingStake v).toNat := by
    rw [← hSum]
    exact toNat_sub_add (UInt64.le_iff_toNat_le.mpr (by omega))
  have hReach : ¬ V.runningStake sh v + queuePart V sh v ≤ V.runningStake sh v := by
    rw [UInt64.le_iff_toNat_le, UInt64.toNat_add]
    omega
  refine ⟨hReach, ?_⟩
  have hLarge : ¬ queuePart V sh v < sh.pendingStake v := by
    rw [UInt64.lt_iff_toNat_lt]
    omega
  rw [queuePart, pendingStake_slashShadow, queueBurn_slashShadow, if_pos ⟨rfl, hReach⟩,
    if_neg hLarge, if_pos ⟨rfl, hReach⟩, queuePart]
  grind

theorem proofsFirst_of_counted (hFits : Fits V) (h : Counted V txs) : ProofsFirst V.E txs := by
  suffices hAll : ∀ before, before <+: txs → ProofsFirst V.E before from hAll txs (List.prefix_refl _)
  intro before
  induction before using List.reverseRecOn with
  | nil => exact fun _ first t rest blockA hSplit => by simp at hSplit
  | append_singleton before tx ih =>
    intro hPrefix
    have hFirst := ih ((List.prefix_append _ _).trans hPrefix)
    refine hFirst.concat fun blockA hType hDecode => ?_
    obtain ⟨sh₂, s₂, hRun₂, hPass₂, hAgrees₂⟩ := h.agrees _ hPrefix
    obtain ⟨sh₁, hRun₁, hTx⟩ := run_concat.mp hRun₂
    obtain ⟨s₁, hPass₁, hOrderly, hEvidence, hAgrees⟩ := both_of_run hRun₁ hFirst
    have hAgrees₁ := hAgrees (sameQueue_of_counted h)
    by_contra hUnstaked
    rw [← hOrderly.pending] at hUnstaked
    obtain ⟨hReach, hQueue⟩ := queuePart_slashShadow hOrderly (fits_of_run hFits hRun₁ _) hUnstaked
    obtain ⟨mid, s', nonce, balance, hApply, hStep, hCoins⟩ := bothStep_of_validateTx hEvidence hTx
    obtain rfl : s' = s₂ := by
      rw [stakePass, foldlM_concat_eq_ok] at hPass₂
      obtain ⟨t, hPass, hLast⟩ := hPass₂
      obtain rfl : s₁ = t := Except.ok.inj (hPass₁.symm.trans hPass)
      exact Except.ok.inj (hApply.symm.trans hLast)
    have hCount := hAgrees₂.queue (hexEncode blockA.slotLeader)
    cases hStep with
    | stake hOther => exact absurd (hType.symm.trans hOther) (by decide)
    | unstake hOther => exact absurd (hType.symm.trans hOther) (by decide)
    | other _ _ hNot => exact hNot hType
    | proof _ block hBlock =>
      obtain rfl : blockA = block := Except.ok.inj (hDecode.symm.trans hBlock)
      rw [hCoins] at hCount
      have hApplied := getPendingStake_slash (hexEncode blockA.slotLeader)
        (hexEncode blockA.slotLeader) s₁
      rw [← hAgrees₁.stake, ← hAgrees₁.queue, if_pos ⟨rfl, hReach⟩] at hApplied
      have hWrapped := hQueue.symm.trans (hCount.trans hApplied)
      grind

/-- The counts of an accepted list agree if no proof comes after an UNSTAKE of its offender and no
entry of the queue matures; where the supply fits in 64 bits, they agree only then. -/
theorem counted_iff_proofsFirst (hRun : V.run txs = .ok sh) :
    (SameQueue V ∧ ProofsFirst V.E txs → Counted V txs) ∧
      (Fits V → Counted V txs → SameQueue V ∧ ProofsFirst V.E txs) :=
  ⟨fun h => counted_of_proofsFirst hRun h.1 h.2,
    fun hFits h => ⟨sameQueue_of_counted h, proofsFirst_of_counted hFits h⟩⟩

end Runs

/-- The validation of the slashing report, for another list of transactions. -/
def reportValidation : Validation :=
  blockValidation equivocatorEnv slashingNode.state (slashingReport equivocatorEnv)

/-- The stake of the reported validator is counted alike. -/
theorem counted_iff_proofsFirst_report :
    (∃ sh, reportValidation.run [slashingProof] = .ok sh) ∧
      Counted reportValidation [slashingProof] := by
  obtain ⟨sh, hRun⟩ := exists_eq_ok (by decide +kernel :
    (reportValidation.run [slashingProof]).isOk = true)
  refine ⟨⟨sh, hRun⟩, (counted_iff_proofsFirst hRun).1 ⟨?_, ?_⟩⟩
  · have hEmpty : slashingNode.state.stakes.unstakeQueue.pending = [] := by decide +kernel
    intro v
    simp [openedStakes, openStakes, UnstakeQueue.sweepMature, UnstakeQueue.getPendingStake,
      reportValidation, blockValidation, hEmpty]
  · exact proofsFirst_of_no_unstake (by decide +kernel)

/-- The reported validator takes 100 of its 500 coins out. -/
def earlyUnstake : Transaction :=
  StandIn.signAs (utf8 "validator")
    { tid := 3, type := .unstake, ownerKey := utf8 "validator", fee := 1, nonce := 1
      stakeAmount := 100 }

/-- Then the proof leaves no coins to slash, but validation counts almost `2 ^ 64` of them. -/
theorem unstake_before_proof_wraps :
    ∃ sh s, reportValidation.run [earlyUnstake, slashingProof] = .ok sh ∧
      stakePass reportValidation.E reportValidation.currentSlot [earlyUnstake, slashingProof]
        (openedStakes reportValidation) = .ok s ∧
      reportValidation.runningStake sh.coins (hexEncode (utf8 "validator")) +
        queuePart reportValidation sh.coins (hexEncode (utf8 "validator")) = 0 - 100 ∧
      s.stakeMap.getStake (hexEncode (utf8 "validator")) +
        s.unstakeQueue.getPendingStake (hexEncode (utf8 "validator")) = 0 := by
  obtain ⟨sh, hRun, hShadow⟩ := exists_of_any
    (p := fun sh => reportValidation.runningStake sh.coins (hexEncode (utf8 "validator")) +
      queuePart reportValidation sh.coins (hexEncode (utf8 "validator")) == 0 - 100)
    (by decide +kernel :
      (reportValidation.run [earlyUnstake, slashingProof]).toOption.any _ = true)
  obtain ⟨s, hPass, hState⟩ := exists_of_any
    (p := fun s => s.stakeMap.getStake (hexEncode (utf8 "validator")) +
      s.unstakeQueue.getPendingStake (hexEncode (utf8 "validator")) == 0)
    (by decide +kernel : (stakePass reportValidation.E reportValidation.currentSlot
      [earlyUnstake, slashingProof] (openedStakes reportValidation)).toOption.any _ = true)
  exact ⟨sh, s, hRun, hPass, beq_iff_eq.mp hShadow, beq_iff_eq.mp hState⟩

end Bdns.Safety
