import Bdns.Blockchain.Acceptance
import Bdns.Blockchain.DomainEffect

/-!
# Coins in the passes over a block

What one transaction does to the coins: in the ledger pass, where a sender that can cover its
expenses pays them exactly; in the stake pass; and in the domain pass, where a BUY moves its
price.
-/

namespace Bdns.Blockchain

open Lib

/-! ## The passes of the leader and of a validator -/

/-- One loop over ledger and stakes is as good as two. -/
theorem leaderPass_eq_ok {E : External} {slot : Int64} {txs : List Transaction}
    {ledger ledger' : BalanceLedger} {s s' : StakeState} :
    leaderPass E slot txs (ledger, s) = .ok (ledger', s') ↔
      ledgerPass txs ledger = .ok ledger' ∧ stakePass E slot txs s = .ok s' := by
  induction txs using List.reverseRecOn generalizing ledger' s' with
  | nil => simp [leaderPass, ledgerPass, stakePass]
  | append_singleton txs tx ih =>
    unfold leaderPass ledgerPass stakePass at ih ⊢
    simp only [foldlM_concat_eq_ok, Prod.exists, ih, bind_eq_ok, pure_eq_ok, Prod.mk.injEq]
    constructor
    · rintro ⟨l, t, ⟨hl, ht⟩, l', hl', t', ht', rfl, rfl⟩
      exact ⟨⟨l, hl, hl'⟩, t, ht, ht'⟩
    · rintro ⟨⟨l, hl, hl'⟩, t, ht, ht'⟩
      exact ⟨l, t, ⟨hl, ht⟩, ledger', hl', s', ht', rfl, rfl⟩

/-! ## The ledger -/

open Validation in
/-- The ledger after a sender has paid what its transaction costs. -/
structure Paid (tx : Transaction) (ledger ledger' : BalanceLedger) : Prop where
  supply : ledger'.supply + tx.fee.toNat + bonded tx = ledger.supply
  sender : (ledger.getBalance (hexEncode tx.ownerKey)).toNat ≤
    (ledger'.getBalance (hexEncode tx.ownerKey)).toNat + tx.fee.toNat + funded tx + bonded tx
  others : ∀ k, hexEncode tx.ownerKey ≠ k →
    (ledger.getBalance k).toNat ≤ (ledger'.getBalance k).toNat

theorem toNat_getBalance_credit {bl : BalanceLedger} {amount : UInt64}
    (hFit : bl.supply + amount.toNat < 2 ^ 64) (k k' : Bytes) :
    ((bl.credit k amount).getBalance k').toNat =
      (bl.getBalance k').toNat + if k = k' then amount.toNat else 0 := by
  rw [BalanceLedger.getBalance_credit]
  split
  · rename_i hk
    subst hk
    rw [UInt64.toNat_add]
    have hLe := bl.getBalance_le_supply k
    exact Nat.mod_eq_of_lt (by omega)
  · rfl

theorem debitOrLog_of_le {ledger : BalanceLedger} {k : Bytes} {amount : UInt64}
    (h : amount ≤ ledger.getBalance k) :
    ∃ debited, debitOrLog ledger k amount = .ok debited ∧ ledger.Debited debited k amount := by
  have hDebit := BalanceLedger.debit_of_le h
  refine ⟨_, ?_, BalanceLedger.debit_ok hDebit⟩
  rw [debitOrLog, hDebit]
  rfl

section Covered

open Validation

variable {tx : Transaction} {k : Bytes} {ledger : BalanceLedger}

theorem applyFee_of_covered (hFee : tx.fee.toNat ≤ (ledger.getBalance k).toNat) :
    ∃ ledger', applyFee tx k ledger = .ok ledger' ∧ ledger.Debited ledger' k tx.fee := by
  by_cases hPos : 0 < tx.fee
  · rw [applyFee, if_pos hPos]
    exact debitOrLog_of_le (UInt64.le_iff_toNat_le.mpr hFee)
  · have hZero : tx.fee = 0 := by simpa [UInt64.pos_iff_ne_zero] using hPos
    rw [applyFee, if_neg hPos, hZero]
    exact ⟨ledger, rfl, by simp, by simp, fun _ _ => rfl, fun _ => rfl, by simp⟩

/-- A covered FUND moves its amount from the sender to the recipient. -/
theorem applyFund_of_covered (hFit : ledger.supply < 2 ^ 64)
    (hCovered : funded tx ≤ (ledger.getBalance k).toNat) :
    ∃ ledger', applyFund tx k ledger = .ok ledger' ∧ ledger'.supply = ledger.supply ∧
      (ledger.getBalance k).toNat ≤ (ledger'.getBalance k).toNat + funded tx ∧
      ∀ k', k ≠ k' → (ledger.getBalance k').toNat ≤ (ledger'.getBalance k').toNat := by
  by_cases hFund : tx.type = .fund ∧ 0 < tx.recipient.length ∧ 0 < tx.listPrice
  · have hFunded : funded tx = tx.listPrice.toNat := by simp [funded, hFund.1]
    rw [hFunded] at hCovered ⊢
    obtain ⟨debited, hDebit⟩ : ∃ debited, ledger.debit k tx.listPrice = .ok (.ok debited) :=
      ⟨_, BalanceLedger.debit_of_le (UInt64.le_iff_toNat_le.mpr hCovered)⟩
    obtain ⟨hEnough, hSelf, hOthers, -, hSupply⟩ := BalanceLedger.debit_ok hDebit
    have hFit' : debited.supply + tx.listPrice.toNat < 2 ^ 64 := by omega
    refine ⟨debited.credit (hexEncode tx.recipient) tx.listPrice, ?_, ?_, ?_, ?_⟩
    · rw [applyFund, if_pos hFund, hDebit]
      rfl
    · rw [BalanceLedger.supply_credit _ _ _ hFit', hSupply]
    · rw [toNat_getBalance_credit hFit', hSelf]
      have := toNat_sub_add hEnough
      omega
    · intro k' hNe
      rw [toNat_getBalance_credit hFit', hOthers k' hNe]
      omega
  · rw [applyFund, if_neg hFund]
    exact ⟨ledger, rfl, rfl, Nat.le_add_right _ _, fun _ _ => Nat.le_refl _⟩

theorem applyBond_of_covered (hCovered : bonded tx ≤ (ledger.getBalance k).toNat) :
    ∃ ledger', applyBond tx k ledger = .ok ledger' ∧ ledger'.supply + bonded tx = ledger.supply ∧
      (ledger'.getBalance k).toNat + bonded tx = (ledger.getBalance k).toNat ∧
      ∀ k', k ≠ k' → ledger'.getBalance k' = ledger.getBalance k' := by
  by_cases hStake : tx.type = .stake ∧ 0 < tx.stakeAmount
  · have hBonded : bonded tx = tx.stakeAmount.toNat := by simp [bonded, hStake.1]
    rw [hBonded] at hCovered ⊢
    obtain ⟨ledger', hDebit, hEnough, hSelf, hOthers, -, hSupply⟩ :
        ∃ ledger', debitOrLog ledger k tx.stakeAmount = .ok ledger' ∧ _ :=
      debitOrLog_of_le (UInt64.le_iff_toNat_le.mpr hCovered)
    exact ⟨ledger', by rw [applyBond, if_pos hStake, hDebit], hSupply,
      hSelf ▸ toNat_sub_add hEnough, hOthers⟩
  · have hBonded : bonded tx = 0 := by
      unfold bonded
      split
      · rename_i hType
        have hZero : tx.stakeAmount = 0 := by simpa [hType, UInt64.pos_iff_ne_zero] using hStake
        rw [hZero]
        rfl
      · rfl
    rw [applyBond, if_neg hStake, hBonded]
    exact ⟨ledger, rfl, rfl, rfl, fun _ _ => rfl⟩

/-- The ledger pass of a transaction whose sender can cover fee, FUND amount and stake. -/
theorem applyLedgerMutations_of_covered (hFit : ledger.supply < 2 ^ 64)
    (hKey : tx.ownerKey.length ≠ 0)
    (hCovered : tx.fee.toNat + funded tx + bonded tx ≤
      (ledger.getBalance (hexEncode tx.ownerKey)).toNat) :
    ∃ ledger', applyLedgerMutations tx ledger = .ok ledger' ∧ Paid tx ledger ledger' := by
  have hNonce := ledger.getBalance_incrementNonce (hexEncode tx.ownerKey)
  have hSupply₀ := ledger.supply_incrementNonce (hexEncode tx.ownerKey)
  obtain ⟨l₁, hFee, hEnough, hSelf₁, hOthers₁, -, hSupply₁⟩ :
      ∃ l₁, applyFee tx (hexEncode tx.ownerKey)
        (ledger.incrementNonce (hexEncode tx.ownerKey)) = .ok l₁ ∧ _ :=
    applyFee_of_covered (by rw [hNonce]; omega)
  have hSub := toNat_sub_add hEnough
  rw [← hSelf₁, hNonce] at hSub
  obtain ⟨l₂, hFund, hSupply₂, hSelf₂, hOthers₂⟩ :
      ∃ l₂, applyFund tx (hexEncode tx.ownerKey) l₁ = .ok l₂ ∧ l₂.supply = l₁.supply ∧ _ :=
    applyFund_of_covered (by omega) (by omega)
  obtain ⟨l₃, hBond, hSupply₃, hSelf₃, hOthers₃⟩ :
      ∃ l₃, applyBond tx (hexEncode tx.ownerKey) l₂ = .ok l₃ ∧
        l₃.supply + bonded tx = l₂.supply ∧ _ :=
    applyBond_of_covered (by omega)
  refine ⟨l₃, ?_, by omega, by omega, ?_⟩
  · rw [applyLedgerMutations, if_neg hKey]
    dsimp only
    rw [hFee]
    exact bind_eq_ok.mpr ⟨l₁, rfl, bind_eq_ok.mpr ⟨l₂, hFund, hBond⟩⟩
  · intro k hNe
    rw [hOthers₃ k hNe, ← hNonce k, ← hOthers₁ k hNe]
    exact hOthers₂ k hNe

end Covered

/-- The domain pass creates no coins. -/
theorem supply_domainPass_le {env : Env} {order : JournalOrder} {slot blockIndex : Int64}
    {txs : List Transaction} {st st' : DomainState}
    (h : domainPass env order slot blockIndex txs st = .ok st') :
    st'.ledger.supply ≤ st.ledger.supply := by
  refine foldlM_invariant (fun t => t.ledger.supply ≤ st.ledger.supply) ?_ (Nat.le_refl _) h
  intro e _ t t' hLe hStep
  obtain ⟨⟨t'', err⟩, hApply, hResult⟩ := bind_eq_ok.mp hStep
  obtain rfl := pure_eq_ok.mp hResult
  obtain hSame | ⟨-, paid, seller, price, hPaid, hCredit⟩ := (applyDomainMutations_eq_ok hApply).ledger
  · exact hSame ▸ hLe
  · have hSupply := (BalanceLedger.debit_ok hPaid).supply
    have hCredited := paid.supply_credit_le (hexEncode seller) price
    rw [← hCredit] at hCredited
    omega

/-- Without a BUY the domain pass leaves the ledger alone. -/
theorem ledger_domainPass_of_no_buy {env : Env} {order : JournalOrder} {slot blockIndex : Int64}
    {txs : List Transaction} {st st' : DomainState} (hNoBuy : ∀ tx ∈ txs, tx.type ≠ .buy)
    (h : domainPass env order slot blockIndex txs st = .ok st') : st'.ledger = st.ledger := by
  refine foldlM_invariant (fun t => t.ledger = st.ledger) ?_ rfl h
  intro e he t t' ht hStep
  obtain ⟨⟨t'', err⟩, hApply, hResult⟩ := bind_eq_ok.mp hStep
  obtain rfl := pure_eq_ok.mp hResult
  obtain hSame | ⟨hBuy, -⟩ := (applyDomainMutations_eq_ok hApply).ledger
  · exact hSame.trans ht
  · exact absurd hBuy (hNoBuy e.1 (List.fst_mem_of_mem_zipIdx he))

theorem supply_creditFees_le (txs : List Transaction) (slotLeader : Bytes) (ledger : BalanceLedger) :
    (creditFees txs slotLeader ledger).supply ≤ ledger.supply + (totalFees txs).toNat := by
  unfold creditFees
  split
  · exact ledger.supply_credit_le _ _
  · exact Nat.le_add_right _ _

/-! ## Accounts have hexadecimal keys -/

section PlainKeys

variable {ledger ledger' : BalanceLedger}

theorem plainKeys_debit (h : ledger.PlainKeys) {key : Bytes} {amount : UInt64}
    (hDebit : ledger.debit (hexEncode key) amount = .ok (.ok ledger')) : ledger'.PlainKeys := by
  obtain ⟨-, text, hr⟩ | ⟨-, hr⟩ := BalanceLedger.debit_cases hDebit
  · cases hr
  · cases hr
    exact h.set (hexEncode_alnum key) _

theorem plainKeys_debitOrLog (h : ledger.PlainKeys) {key : Bytes} {amount : UInt64}
    (hDebit : debitOrLog ledger (hexEncode key) amount = .ok ledger') : ledger'.PlainKeys := by
  unfold debitOrLog at hDebit
  obtain ⟨r, hr, hDebit⟩ := bind_eq_ok.mp hDebit
  cases r with
  | error text =>
    obtain rfl := pure_eq_ok.mp hDebit
    exact h
  | ok debited =>
    obtain rfl := pure_eq_ok.mp hDebit
    exact plainKeys_debit h hr

theorem plainKeys_applyFund {tx : Transaction} (h : ledger.PlainKeys) {key : Bytes}
    (hFund : applyFund tx (hexEncode key) ledger = .ok ledger') : ledger'.PlainKeys := by
  unfold applyFund at hFund
  split at hFund
  · obtain ⟨r, hr, hFund⟩ := bind_eq_ok.mp hFund
    cases r with
    | error text =>
      obtain rfl := pure_eq_ok.mp hFund
      exact h
    | ok debited =>
      obtain rfl := pure_eq_ok.mp hFund
      exact (plainKeys_debit h hr).set (hexEncode_alnum _) _
  · obtain rfl := pure_eq_ok.mp hFund
    exact h

theorem plainKeys_applyLedgerMutations {tx : Transaction} (h : ledger.PlainKeys)
    (hApply : applyLedgerMutations tx ledger = .ok ledger') : ledger'.PlainKeys := by
  unfold applyLedgerMutations at hApply
  split at hApply
  · obtain rfl := pure_eq_ok.mp hApply
    exact h
  · obtain ⟨l₁, hFee, hApply⟩ := bind_eq_ok.mp hApply
    obtain ⟨l₂, hFund, hBond⟩ := bind_eq_ok.mp hApply
    have h₀ : (ledger.incrementNonce (hexEncode tx.ownerKey)).PlainKeys :=
      h.set (hexEncode_alnum _) _
    have h₁ : l₁.PlainKeys := by
      unfold applyFee at hFee
      split at hFee
      · exact plainKeys_debitOrLog h₀ hFee
      · obtain rfl := pure_eq_ok.mp hFee
        exact h₀
    unfold applyBond at hBond
    split at hBond
    · exact plainKeys_debitOrLog (plainKeys_applyFund h₁ hFund) hBond
    · obtain rfl := pure_eq_ok.mp hBond
      exact plainKeys_applyFund h₁ hFund

theorem plainKeys_ledgerPass {txs : List Transaction} (h : ledger.PlainKeys)
    (hPass : ledgerPass txs ledger = .ok ledger') : ledger'.PlainKeys :=
  foldlM_invariant BalanceLedger.PlainKeys
    (fun _ _ _ _ h hApply => plainKeys_applyLedgerMutations h hApply) h hPass

theorem plainKeys_creditFees (h : ledger.PlainKeys) (txs : List Transaction) (slotLeader : Bytes) :
    (creditFees txs slotLeader ledger).PlainKeys := by
  unfold creditFees
  split
  · exact h.set (hexEncode_alnum _) _
  · exact h

theorem plainKeys_domainPass {env : Env} {order : JournalOrder} {slot blockIndex : Int64}
    {txs : List Transaction} {st st' : DomainState} (h : st.ledger.PlainKeys)
    (hPass : domainPass env order slot blockIndex txs st = .ok st') : st'.ledger.PlainKeys := by
  refine foldlM_invariant (fun t => t.ledger.PlainKeys) ?_ h hPass
  intro e _ t t' ht hStep
  obtain ⟨⟨t'', err⟩, hApply, hResult⟩ := bind_eq_ok.mp hStep
  obtain rfl := pure_eq_ok.mp hResult
  obtain hSame | ⟨-, paid, seller, price, hPaid, hCredit⟩ := (applyDomainMutations_eq_ok hApply).ledger
  · exact hSame ▸ ht
  · exact hCredit ▸ (plainKeys_debit ht hPaid).set (hexEncode_alnum seller) _

end PlainKeys

/-! ## Stakes -/

theorem queued_slash_le (offenderHex : Bytes) (s : StakeState) :
    (slash offenderHex s).unstakeQueue.queued ≤ s.unstakeQueue.queued := by
  unfold slash
  dsimp only
  split
  · exact Nat.le_refl _
  · exact s.unstakeQueue.queued_burnPending_le _ _

theorem getStake_slash_le (offenderHex v : Bytes) (s : StakeState) :
    ((slash offenderHex s).stakeMap.getStake v).toNat ≤ (s.stakeMap.getStake v).toNat := by
  unfold slash
  dsimp only
  split <;> exact s.stakeMap.getStake_reduceStake_le _ _ _

theorem slashedEvidence_slash (offenderHex : Bytes) (s : StakeState) :
    (slash offenderHex s).slashedEvidence = s.slashedEvidence := by
  unfold slash
  dsimp only
  split <;> rfl

/-- What a slash leaves of the stake of the offender: nothing, unless the sum of stake and queue
has wrapped around. -/
theorem getStake_slash (offenderHex v : Bytes) (s : StakeState) :
    (slash offenderHex s).stakeMap.getStake v =
      if offenderHex = v then
        if s.stakeMap.getStake v + s.unstakeQueue.getPendingStake v ≤ s.stakeMap.getStake v then
          s.stakeMap.getStake v - (s.stakeMap.getStake v + s.unstakeQueue.getPendingStake v)
        else 0
      else s.stakeMap.getStake v := by
  unfold slash
  simp only [computeSlashAmount_slashingPercent]
  by_cases hv : offenderHex = v
  · subst hv
    rw [if_pos rfl]
    split
    · rename_i hLe
      rw [StakeMap.getStake_reduceStake, if_pos rfl]
      split
      · rename_i hGe
        rw [UInt64.le_antisymm hLe hGe, UInt64.sub_self]
      · rfl
    · rw [StakeMap.getStake_reduceStake, if_pos rfl, if_pos (UInt64.le_refl _)]
  · rw [if_neg hv]
    split <;> rw [StakeMap.getStake_reduceStake, if_neg hv]

/-- What a slash leaves of the queue of the offender. -/
theorem getPendingStake_slash (offenderHex v : Bytes) (s : StakeState) :
    (slash offenderHex s).unstakeQueue.getPendingStake v =
      if offenderHex = v ∧ ¬ s.stakeMap.getStake v + s.unstakeQueue.getPendingStake v ≤
        s.stakeMap.getStake v then 0
      else s.unstakeQueue.getPendingStake v := by
  unfold slash
  simp only [computeSlashAmount_slashingPercent]
  by_cases hv : offenderHex = v
  · subst hv
    split
    · rename_i hLe
      rw [if_neg fun h => h.2 hLe]
    · rename_i hLt
      have hExcess : s.stakeMap.getStake offenderHex +
          s.unstakeQueue.getPendingStake offenderHex - s.stakeMap.getStake offenderHex =
            s.unstakeQueue.getPendingStake offenderHex := by grind
      rw [if_pos ⟨rfl, hLt⟩, hExcess, UnstakeQueue.getPendingStake_burnPending, if_pos rfl]
  · simp only [hv, false_and, if_false]
    split
    · rfl
    · rw [UnstakeQueue.getPendingStake_eq, UnstakeQueue.queuedBy_burnPending_of_ne hv,
        UnstakeQueue.getPendingStake_eq]

/-- Where stake and queue of the offender fit in 64 bits, no stake is left. -/
theorem getStake_slash_self {offenderHex : Bytes} {s : StakeState}
    (hFit : (s.stakeMap.getStake offenderHex).toNat +
      (s.unstakeQueue.getPendingStake offenderHex).toNat < 2 ^ 64) :
    (slash offenderHex s).stakeMap.getStake offenderHex = 0 := by
  have hLe : s.stakeMap.getStake offenderHex ≤
      s.stakeMap.getStake offenderHex + s.unstakeQueue.getPendingStake offenderHex := by
    rw [UInt64.le_iff_toNat_le, UInt64.toNat_add, Nat.mod_eq_of_lt hFit]
    exact Nat.le_add_right _ _
  unfold slash
  simp only [computeSlashAmount_slashingPercent]
  split
  · rw [StakeMap.getStake_reduceStake, if_pos rfl, if_pos hLe]
  · rw [StakeMap.getStake_reduceStake, if_pos rfl, if_pos (UInt64.le_refl _)]

theorem getStake_slash_of_ne {offenderHex validatorHex : Bytes} (s : StakeState)
    (hNe : offenderHex ≠ validatorHex) :
    (slash offenderHex s).stakeMap.getStake validatorHex = s.stakeMap.getStake validatorHex := by
  unfold slash
  dsimp only
  split <;> simp [StakeMap.getStake_reduceStake, hNe]

theorem queuedBy_slash_of_ne {offenderHex validatorHex : Bytes} (s : StakeState)
    (hNe : offenderHex ≠ validatorHex) :
    (slash offenderHex s).unstakeQueue.queuedBy validatorHex =
      s.unstakeQueue.queuedBy validatorHex := by
  unfold slash
  dsimp only
  split
  · rfl
  · exact UnstakeQueue.queuedBy_burnPending_of_ne hNe _ _

end Bdns.Blockchain
