import Bdns.Blockchain.Coins
import Bdns.Network.Chain

/-!
# No transaction is accepted twice

Validation hands out the nonces of an account one after the other, through a shadow map inside
a block and through the ledger from block to block. So the nonce of an account counts its
accepted transactions, whatever else happens to its coins.
-/

namespace Bdns.Safety

open Lib Blockchain Network Validation

/-- The transactions of a list that a key has sent. -/
def signedBy (key : Bytes) (txs : List Transaction) : List Transaction :=
  txs.filter fun tx => tx.ownerKey = key

theorem signedBy_concat (key : Bytes) (txs : List Transaction) (tx : Transaction) :
    signedBy key (txs ++ [tx]) =
      if tx.ownerKey = key then signedBy key txs ++ [tx] else signedBy key txs := by
  unfold signedBy
  rw [List.filter_append, List.filter_cons]
  split <;> simp_all

/-- The transactions that a chain has accepted: those of all blocks but the first. -/
def acceptedTxs (blocks : List Block) : List Transaction := blocks.tail.flatMap (·.transactions)

/-! ## Counting -/

/-- The nonces of each key's transactions count from zero, and the next one is known. -/
def InStep (history : List Transaction) (nonce : Bytes → UInt64) : Prop :=
  ∀ key, key ≠ [] →
    (signedBy key history).map (·.nonce) =
        (List.range (signedBy key history).length).map UInt64.ofNat ∧
      nonce (hexEncode key) = UInt64.ofNat (signedBy key history).length

/-- How the next nonces change with a transaction. -/
def bumped (tx : Transaction) (nonce : Bytes → UInt64) (k : Bytes) : UInt64 :=
  if tx.ownerKey.length ≠ 0 ∧ hexEncode tx.ownerKey = k then nonce k + 1 else nonce k

theorem InStep.concat {history : List Transaction} {nonce : Bytes → UInt64} {tx : Transaction}
    (h : InStep history nonce)
    (hNonce : tx.ownerKey.length ≠ 0 → tx.nonce = nonce (hexEncode tx.ownerKey)) :
    InStep (history ++ [tx]) (bumped tx nonce) := by
  intro key hKey
  obtain ⟨hRange, hNext⟩ := h key hKey
  rw [signedBy_concat]
  unfold bumped
  by_cases hSender : tx.ownerKey = key
  · have hSigned : tx.ownerKey.length ≠ 0 := by simpa [hSender] using hKey
    rw [if_pos hSender, if_pos ⟨hSigned, congrArg hexEncode hSender⟩, List.map_append, hRange,
      List.length_append, List.length_singleton, List.range_succ, List.map_append, hNext,
      UInt64.ofNat_add, List.map_singleton, hNonce hSigned, hSender, hNext]
    exact ⟨rfl, rfl⟩
  · rw [if_neg hSender, if_neg fun hEq => hSender (hexEncode_injective hEq.2)]
    exact ⟨hRange, hNext⟩

/-! ## The ledger -/

section Ledger

variable {tx : Transaction} {ledger ledger' : BalanceLedger} {pubKeyHex : Bytes}

theorem getNonce_debitOrLog {amount : UInt64}
    (h : debitOrLog ledger pubKeyHex amount = .ok ledger') (k : Bytes) :
    ledger'.getNonce k = ledger.getNonce k := by
  unfold debitOrLog at h
  obtain ⟨r, hDebit, h⟩ := bind_eq_ok.mp h
  cases r with
  | error text =>
    obtain rfl := pure_eq_ok.mp h
    rfl
  | ok debited =>
    obtain rfl := pure_eq_ok.mp h
    exact (BalanceLedger.debit_ok hDebit).nonce k

theorem getNonce_applyFee (h : applyFee tx pubKeyHex ledger = .ok ledger') (k : Bytes) :
    ledger'.getNonce k = ledger.getNonce k := by
  unfold applyFee at h
  split at h
  · exact getNonce_debitOrLog h k
  · obtain rfl := pure_eq_ok.mp h
    rfl

theorem getNonce_applyFund (h : applyFund tx pubKeyHex ledger = .ok ledger') (k : Bytes) :
    ledger'.getNonce k = ledger.getNonce k := by
  unfold applyFund at h
  split at h
  · obtain ⟨r, hDebit, h⟩ := bind_eq_ok.mp h
    cases r with
    | error text =>
      obtain rfl := pure_eq_ok.mp h
      rfl
    | ok debited =>
      obtain rfl := pure_eq_ok.mp h
      rw [BalanceLedger.getNonce_credit]
      exact (BalanceLedger.debit_ok hDebit).nonce k
  · obtain rfl := pure_eq_ok.mp h
    rfl

theorem getNonce_applyBond (h : applyBond tx pubKeyHex ledger = .ok ledger') (k : Bytes) :
    ledger'.getNonce k = ledger.getNonce k := by
  unfold applyBond at h
  split at h
  · exact getNonce_debitOrLog h k
  · obtain rfl := pure_eq_ok.mp h
    rfl

/-- Only the nonce of the sender moves, also where a debit fails. -/
theorem getNonce_applyLedgerMutations (h : applyLedgerMutations tx ledger = .ok ledger') :
    ledger'.getNonce = bumped tx ledger.getNonce := by
  unfold applyLedgerMutations at h
  funext k
  unfold bumped
  split at h
  · rename_i hKey
    obtain rfl := pure_eq_ok.mp h
    rw [if_neg fun hSigned => hSigned.1 hKey]
  · rename_i hKey
    dsimp only at h
    obtain ⟨charged, hFee, h⟩ := bind_eq_ok.mp h
    obtain ⟨moved, hFund, hBond⟩ := bind_eq_ok.mp h
    rw [getNonce_applyBond hBond, getNonce_applyFund hFund, getNonce_applyFee hFee,
      BalanceLedger.getNonce_incrementNonce]
    by_cases hk : hexEncode tx.ownerKey = k
    · rw [if_pos hk, if_pos ⟨hKey, hk⟩, hk]
    · rw [if_neg hk, if_neg fun hSigned => hk hSigned.2]

theorem getNonce_creditFees (txs : List Transaction) (slotLeader k : Bytes) :
    (creditFees txs slotLeader ledger).getNonce k = ledger.getNonce k := by
  unfold creditFees
  split
  · exact BalanceLedger.getNonce_credit ..
  · rfl

theorem getNonce_domainPass {env : Env} {order : JournalOrder} {slot blockIndex : Int64}
    {txs : List Transaction} {st st' : DomainState}
    (h : domainPass env order slot blockIndex txs st = .ok st') :
    st'.ledger.getNonce = st.ledger.getNonce := by
  refine domainPass_invariant (fun t => t.ledger.getNonce = st.ledger.getNonce) ?_ rfl h
  intro tx _ i t t' err hSame hApply
  obtain hEq | ⟨-, paid, seller, price, hPaid, hCredit⟩ := (applyDomainMutations_eq_ok hApply).ledger
  · rw [hEq, hSame]
  · funext k
    rw [hCredit, BalanceLedger.getNonce_credit, (BalanceLedger.debit_ok hPaid).nonce, hSame]

end Ledger

/-! ## A block, and a chain -/

/-- An accepted list continues the count, and its ledger pass ends with the nonces that
validation computed. -/
theorem inStep_of_run {V : Validation} {history txs : List Transaction} {sh : Shadow}
    {ledger : BalanceLedger} (h : InStep history V.ledger.getNonce) (hRun : V.run txs = .ok sh)
    (hPass : ledgerPass txs V.ledger = .ok ledger) :
    InStep (history ++ txs) ledger.getNonce ∧ V.runningNonce sh.coins = ledger.getNonce := by
  induction txs using List.reverseRecOn generalizing sh ledger with
  | nil =>
    obtain rfl : V.ledger = ledger := by simpa [ledgerPass] using hPass
    obtain rfl : ({} : Shadow) = sh := by simpa [run] using hRun
    exact ⟨by simpa using h, rfl⟩
  | append_singleton txs tx ih =>
    obtain ⟨before, hBefore, hTx⟩ := run_concat.mp hRun
    obtain ⟨mid, hMid, hApply⟩ := foldlM_concat_eq_ok.mp hPass
    obtain ⟨hStep, hSame⟩ := ih hBefore hMid
    obtain ⟨hNonce, hNext⟩ := runningNonce_of_validateTx hTx
    rw [hSame] at hNonce
    rw [getNonce_applyLedgerMutations hApply, ← List.append_assoc]
    refine ⟨hStep.concat hNonce, ?_⟩
    funext k
    rw [hNext k, hSame]
    rfl

theorem inStep_genesis (env : Env) : InStep [] (genesisState env).ledger.getNonce := by
  intro key _
  refine ⟨rfl, ?_⟩
  unfold genesisState
  dsimp only
  -- seeding writes accounts whose nonce is zero
  suffices h : ∀ (keys : List Bytes) (ledger : BalanceLedger), ledger.getNonce (hexEncode key) = 0 →
      (keys.foldl (fun ledger regKey => ledger.seed (hexEncode regKey) genesisBalance)
        ledger).getNonce (hexEncode key) = 0 from h _ {} (by simp [BalanceLedger.getNonce,
          BalanceLedger.account])
  intro keys
  induction keys with
  | nil => exact fun _ hZero => hZero
  | cons regKey keys ih =>
    intro ledger hZero
    refine ih _ ?_
    simp only [BalanceLedger.getNonce, BalanceLedger.seed, BalanceLedger.account_set]
    split
    · rfl
    · exact hZero

theorem acceptedTxs_concat {blocks : List Block} (hBlocks : blocks ≠ []) (b : Block) :
    acceptedTxs (blocks ++ [b]) = acceptedTxs blocks ++ b.transactions := by
  simp [acceptedTxs, List.tail_append_of_ne_nil hBlocks]

theorem inStep_of_chain {env : Env} {blocks : List Block} {s : ChainState}
    (hChain : Chain env blocks s) : InStep (acceptedTxs blocks) s.ledger.getNonce := by
  induction hChain with
  | genesis block => exact inStep_genesis env
  | @add blocks s latest b order slotLeader staged _ tip accepted ih =>
    have hBlocks : blocks ≠ [] := by
      rintro rfl
      simp at tip
    obtain ⟨-, ⟨sh, hRun⟩, ⟨ledger, st, hPass, hDomain, hLedger, -⟩, -⟩ :=
      validateBlock_eq_ok accepted
    have hStaged : staged.ledger.getNonce = ledger.getNonce := by
      funext k
      rw [hLedger, getNonce_domainPass hDomain, getNonce_creditFees]
    rw [acceptedTxs_concat hBlocks]
    change InStep _ staged.ledger.getNonce
    rw [hStaged]
    exact (inStep_of_run ih hRun hPass).1

/-! ## No replay -/

/-- The accepted transactions that name a sender. -/
def signedTxs (blocks : List Block) : List Transaction :=
  (acceptedTxs blocks).filter fun tx => tx.ownerKey ≠ []

/-- Along a chain with fewer than `2 ^ 64` transactions of each account, the nonces of an
account's transactions are `0, 1, 2, …` in chain order, its nonce in the ledger is their number,
no two accepted transactions have sender and nonce in common, and none is accepted twice. -/
theorem no_replay {env : Env} {blocks : List Block} {s : ChainState}
    (hChain : Chain env blocks s)
    (hFew : ∀ key, key ≠ [] → (signedBy key (acceptedTxs blocks)).length < 2 ^ 64) :
    (∀ key, key ≠ [] →
      (signedBy key (acceptedTxs blocks)).map (fun tx => tx.nonce.toNat) =
          List.range (signedBy key (acceptedTxs blocks)).length ∧
        (s.ledger.getNonce (hexEncode key)).toNat =
          (signedBy key (acceptedTxs blocks)).length) ∧
      ((signedTxs blocks).map fun tx => (tx.ownerKey, tx.nonce)).Nodup ∧
      (signedTxs blocks).Nodup := by
  have hCount : ∀ key, key ≠ [] →
      (signedBy key (acceptedTxs blocks)).map (fun tx => tx.nonce.toNat) =
        List.range (signedBy key (acceptedTxs blocks)).length := by
    intro key hKey
    obtain ⟨hRange, -⟩ := inStep_of_chain hChain key hKey
    have hNat := congrArg (List.map UInt64.toNat) hRange
    rw [List.map_map, List.map_map] at hNat
    refine Eq.trans hNat ?_
    conv_rhs => rw [← List.map_id (List.range _)]
    refine List.map_congr_left fun i hi => ?_
    have hLt := Nat.lt_trans (List.mem_range.mp hi) (hFew key hKey)
    exact UInt64.toNat_ofNat_of_lt' hLt
  have hNodup : ((signedTxs blocks).map fun tx => (tx.ownerKey, tx.nonce)).Nodup := by
    refine List.pairwise_map.mpr (List.pairwise_iff_forall_sublist.mpr ?_)
    intro tx tx' hPair hEq
    obtain ⟨hSender, hNonce⟩ := Prod.mk.inj hEq
    have hKey : tx.ownerKey ≠ [] := by
      simpa using (List.mem_filter.mp (hPair.subset List.mem_cons_self)).2
    -- both are transactions of one sender, whose nonces are distinct
    have hSigned : [tx, tx'].Sublist (signedBy tx.ownerKey (acceptedTxs blocks)) := by
      have hFiltered := (hPair.trans List.filter_sublist).filter fun t => t.ownerKey = tx.ownerKey
      simpa [signedBy, hSender] using hFiltered
    have hNonces := hSigned.map fun t => t.nonce.toNat
    rw [hCount tx.ownerKey hKey] at hNonces
    have hDistinct := List.pairwise_iff_forall_sublist.mp List.nodup_range hNonces
    exact hDistinct (congrArg UInt64.toNat hNonce)
  refine ⟨fun key hKey => ⟨hCount key hKey, ?_⟩, hNodup, hNodup.of_map _⟩
  rw [(inStep_of_chain hChain key hKey).2]
  exact UInt64.toNat_ofNat_of_lt' (hFew key hKey)

theorem no_replay_registry :
    (signedTxs (StandIn.registryBlocks 4)).Nodup ∧
      ((StandIn.registryChain 4).1.ledger.getNonce (hexEncode (utf8 "registry"))).toNat = 5 := by
  have hLength : (acceptedTxs (StandIn.registryBlocks 4)).length = 5 := by decide +kernel
  obtain ⟨hCount, -, hNodup⟩ := no_replay (StandIn.chain_registryBlocks (Nat.le_refl 4))
    (fun key _ => Nat.lt_of_le_of_lt (List.length_filter_le _ _) (by rw [hLength]; decide))
  refine ⟨hNodup, ?_⟩
  rw [(hCount (utf8 "registry") (by decide +kernel)).2]
  decide +kernel

end Bdns.Safety
