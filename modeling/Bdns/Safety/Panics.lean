import Bdns.Safety.Presence
import Bdns.Network.Pool

/-!
# Where validation panics

Every field of a block is in the hands of its sender. The messages of the gates slice keys, the
evidence of an EQUIVOCATION_PROOF is decoded, and the root of the transactions is computed before
anything else is known of them. The keys that are sliced have signed, so they have parsed, and the
encoding of a public key takes more than four bytes. The other two stop the node.
-/

namespace Bdns.Safety

open Lib Blockchain Network Index Validation

/-- `x509.ParsePKIXPublicKey` reads a sequence of a sequence and a bit string, and four bytes are
not enough for that. -/
def ParsesLongKeys (E : External) : Prop :=
  ∀ key, (E.parsePublicKey key).isSome = true → 4 ≤ key.length

theorem ParsesLongKeys.of_verify {E : External} (h : ParsesLongKeys E) {key digest signature : Bytes}
    (hVerify : E.verify key digest signature = true) : 4 ≤ key.length := by
  refine h key ?_
  unfold External.verify at hVerify
  split at hVerify
  · cases hVerify
  · rename_i publicKey hParse
    rw [hParse]
    rfl

/-! ## Runs that end with a verdict -/

def Quiet {α : Type} (x : Except Stop α) : Prop := ∀ p, x ≠ .error (.panic p)

namespace Quiet

variable {α β : Type}

theorem bind {x : Except Stop α} {f : α → Except Stop β} (hx : Quiet x)
    (hf : ∀ a, x = .ok a → Quiet (f a)) : Quiet (x >>= f) :=
  fun p => bind_ne_error (hx p) fun a ha => hf a ha p

theorem pure (a : α) : Quiet (Pure.pure a : Except Stop α) := nofun

theorem reject : Quiet (throw .reject : Except Stop α) := nofun

theorem require (p : Prop) [Decidable p] : Quiet (Blockchain.require p) := by
  unfold Blockchain.require check
  split
  · exact .pure ()
  · exact .reject

theorem requireNaming {k : Bytes} (hKey : 8 ≤ k.length) (p : Prop) [Decidable p] :
    Quiet (Blockchain.requireNaming k p) := by
  unfold Blockchain.requireNaming
  split
  · exact .pure ()
  · rw [if_neg (by omega)]
    exact .reject

/-- A step that looks at a transaction, where there is one. -/
theorem domainIn (V : Validation) (sh : DomainShadow) (d : Bytes) (acceptable : Phase → Prop)
    [DecidablePred acceptable] : Quiet (V.domainIn sh d acceptable) := by
  unfold Validation.domainIn
  split
  · exact .require _
  · exact .require _

end Quiet

/-! ## The gates -/

section Gates

variable {V : Validation} {tx : Transaction}

theorem quiet_checkHygiene (tx : Transaction) : Quiet (checkHygiene tx) := by
  unfold checkHygiene
  split
  · exact .require _
  · exact .require _
  · exact .require _
  · exact .pure ()
  · exact .require _

theorem quiet_checkRedeems (sh : DomainShadow) : Quiet (V.checkRedeems sh tx) := by
  unfold checkRedeems
  split
  · refine .bind (.require _) fun _ _ => .bind (.require _) fun _ _ => ?_
    dsimp only
    split
    · split
      · exact .bind .reject fun _ _ => .pure _
      · exact .bind (.require _) fun _ _ => .pure _
    · exact .pure _
  · exact .pure _

theorem quiet_checkShape (tx : Transaction) : Quiet (checkShape tx) :=
  .bind (.require _) fun _ _ => .bind (.require _) fun _ _ => .bind (.require _) fun _ _ =>
    .bind (.require _) fun _ _ => .require _

theorem quiet_checkCommit (sh : DomainShadow) : Quiet (V.checkCommit sh tx) := by
  unfold checkCommit
  split
  · exact .bind (.require _) fun _ _ => .bind (.require _) fun _ _ => .bind (.require _) fun _ _ =>
      .bind (.require _) fun _ _ => .bind (.require _) fun _ _ => .bind (.require _) fun _ _ =>
        .bind (.require _) fun _ _ => .bind (.require _) fun _ _ => .pure _
  · exact .pure _

theorem quiet_checkForm (sh : DomainShadow) : Quiet (V.checkForm sh tx) := by
  refine .bind (.require _) fun _ _ => .bind (quiet_checkHygiene tx) fun _ _ =>
    .bind (.require _) fun _ _ => .bind (.require _) fun _ _ =>
      .bind (quiet_checkRedeems sh) fun redeemed _ => .bind (quiet_checkShape tx) fun _ _ =>
        .bind (quiet_checkCommit redeemed) fun committed _ => .bind ?_ fun _ _ => .pure _
  unfold checkMarketPhase
  split
  · exact .domainIn V committed tx.domainName _
  · exact .pure _

theorem quiet_checkOwnerless (sh : DomainShadow) : Quiet (V.checkOwnerless sh tx) :=
  .bind (.require _) fun _ _ => .bind (.require _) fun _ _ => .bind (.require _) fun _ _ =>
    .require _

section Named

variable {k : Bytes} (hKey : 8 ≤ k.length)

include hKey

theorem quiet_checkFunds (sh : CoinShadow) : Quiet (V.checkFunds sh tx k) := by
  unfold checkFunds
  refine .bind (.requireNaming hKey _) fun _ _ => ?_
  dsimp only
  split
  · exact .bind (.requireNaming hKey _) fun _ _ => .bind (.require _) fun _ _ =>
      .bind (.require _) fun _ _ => .bind (.requireNaming hKey _) fun _ _ =>
        .bind (.requireNaming hKey _) fun _ _ => .bind (.requireNaming hKey _) fun _ _ => .pure _
  · exact .bind (.requireNaming hKey _) fun _ _ => .bind (.requireNaming hKey _) fun _ _ => .pure _

theorem quiet_checkBuy (sh : DomainShadow) (balance : UInt64) :
    Quiet (V.checkBuy sh tx k balance) := by
  unfold checkBuy
  split
  · exact .bind (.require _) fun _ _ => .bind (.requireNaming hKey _) fun _ _ =>
      .bind (.require _) fun _ _ => .bind (.requireNaming hKey _) fun _ _ => .pure _
  · exact .pure _

theorem quiet_checkListing (sh : DomainShadow) : Quiet (V.checkListing sh tx k) := by
  unfold checkListing
  split
  · refine .bind (.requireNaming hKey _) fun _ _ => ?_
    split
    · exact .pure _
    · exact .bind (.require _) fun _ _ => .pure _
  · exact .pure _

theorem quiet_checkUpdateRevoke (sh : DomainShadow) : Quiet (V.checkUpdateRevoke sh tx k) := by
  unfold checkUpdateRevoke
  split
  · exact .bind (.domainIn V sh tx.domainName _) fun _ _ => .requireNaming hKey _
  · exact .pure _

theorem quiet_checkRenew (sh : DomainShadow) : Quiet (V.checkRenew sh tx k) := by
  unfold checkRenew
  split
  · exact .bind (.domainIn V sh tx.domainName _) fun _ _ => .requireNaming hKey _
  · exact .pure _

theorem quiet_checkRegister (sh : DomainShadow) : Quiet (V.checkRegister sh tx k) := by
  unfold checkRegister
  split
  · refine .bind (.requireNaming hKey _) fun _ _ => .bind (.require _) fun _ _ => ?_
    split
    · exact .pure _
    · exact .bind (.require _) fun _ _ => .pure _
  · exact .pure _

theorem quiet_checkTransfer (sh : DomainShadow) : Quiet (V.checkTransfer sh tx k) := by
  unfold checkTransfer
  split
  · exact .bind (.requireNaming hKey _) fun _ _ => .pure _
  · split
    · exact .pure _
    · exact .pure _

theorem quiet_checkStake (sh : CoinShadow) (balance : UInt64) :
    Quiet (V.checkStake sh tx k balance) := by
  unfold checkStake
  split
  · exact .bind (.require _) fun _ _ => .bind (.require _) fun _ _ => .bind (.require _) fun _ _ =>
      .bind (.requireNaming hKey _) fun _ _ => .pure _
  · exact .pure _

end Named

theorem quiet_checkReveal (sh : DomainShadow) : Quiet (V.checkReveal sh tx) := by
  unfold checkReveal
  split
  · refine .bind (.require _) fun _ _ => .bind (.require _) fun _ _ => .bind (.require _) fun _ _ => ?_
    dsimp only
    split
    · exact .reject
    · refine .bind (.require _) fun _ _ => .bind (.require _) fun _ _ =>
        .bind (.require _) fun _ _ => .bind (.require _) fun _ _ => .bind (.require _) fun _ _ => ?_
      split
      · exact .pure _
      · exact .bind (.require _) fun _ _ => .bind (.require _) fun _ _ => .pure _
  · exact .pure _

theorem quiet_checkDomainGates {k : Bytes} (hKey : 8 ≤ k.length) (sh : DomainShadow)
    (balance : UInt64) : Quiet (V.checkDomainGates sh tx k balance) :=
  .bind (quiet_checkBuy hKey sh balance) fun paid _ =>
    .bind (quiet_checkListing hKey paid.2) fun listed _ =>
      .bind (quiet_checkUpdateRevoke hKey listed) fun _ _ =>
        .bind (quiet_checkRenew hKey listed) fun _ _ =>
          .bind (quiet_checkRegister hKey listed) fun registered _ =>
            .bind (quiet_checkReveal registered) fun revealed _ =>
              .bind (quiet_checkTransfer hKey revealed) fun _ _ => .pure _

theorem quiet_checkUnstake (sh : CoinShadow) (k : Bytes) : Quiet (V.checkUnstake sh tx k) := by
  unfold checkUnstake
  split
  · exact .bind (.require _) fun _ _ => .bind (.require _) fun _ _ => .bind (.require _) fun _ _ =>
      .pure _
  · exact .pure _

/-- An EQUIVOCATION_PROOF that passes every gate before its evidence is decoded, with evidence that
gob cannot decode. -/
structure Garbled (V : Validation) (sh : Shadow) (tx : Transaction) : Prop where
  type : tx.type = .equivocationProof
  form : ∃ domains, V.checkForm sh.domains tx = .ok domains
  key : tx.ownerKey.length ≠ 0
  funds : ∃ balance, V.checkFunds sh.coins tx (hexEncode tx.ownerKey) = .ok balance
  present : tx.equivBlockA ≠ [] ∧ tx.equivBlockB ≠ []
  small : tx.equivBlockA.length ≤ maxEvidenceBlockBytes ∧
    tx.equivBlockB.length ≤ maxEvidenceBlockBytes
  undecoded : V.E.ungobBlock tx.equivBlockA = none ∨ V.E.ungobBlock tx.equivBlockB = none

theorem quiet_deserializeBlock {E : External} {d : Bytes} (h : E.ungobBlock d ≠ none) :
    Quiet (liftGo (deserializeBlock E d)) := by
  unfold deserializeBlock
  split
  · contradiction
  · exact .pure _

theorem quiet_checkEquivocation (sh : CoinShadow)
    (h : tx.type = .equivocationProof → tx.equivBlockA ≠ [] ∧ tx.equivBlockB ≠ [] →
      tx.equivBlockA.length ≤ maxEvidenceBlockBytes ∧
        tx.equivBlockB.length ≤ maxEvidenceBlockBytes →
      V.E.ungobBlock tx.equivBlockA ≠ none ∧ V.E.ungobBlock tx.equivBlockB ≠ none) :
    Quiet (V.checkEquivocation sh tx) := by
  unfold checkEquivocation
  split
  · rename_i hType
    refine .bind (.require _) fun _ hPresent => .bind (.require _) fun _ hSmall => ?_
    obtain ⟨hA, hB⟩ := h hType (require_eq_ok.mp hPresent) (require_eq_ok.mp hSmall)
    refine .bind (quiet_deserializeBlock hA) fun blockA _ =>
      .bind (quiet_deserializeBlock hB) fun blockB _ => ?_
    exact .bind (.require _) fun _ _ => .bind (.require _) fun _ _ => .bind (.require _) fun _ _ =>
      .bind (.require _) fun _ _ => .bind (.require _) fun _ _ => .bind (.require _) fun _ _ =>
        .pure _
  · exact .pure _

/-- A transaction that names a key that is not empty names one that can be shown. -/
theorem nameable_of_checkForm (hKeys : ParsesLongKeys V.E) {sh sh' : DomainShadow}
    (h : V.checkForm sh tx = .ok sh') (hKey : tx.ownerKey.length ≠ 0) :
    8 ≤ (hexEncode tx.ownerKey).length := by
  obtain ⟨redeemed, hFormed⟩ := formed_of_checkForm h
  have hLong := hKeys.of_verify (hFormed.signature (Nat.pos_of_ne_zero hKey))
  rw [length_hexEncode]
  omega

/-- Nothing but garbled evidence keeps the gates from a verdict. -/
theorem quiet_validateTx (hKeys : ParsesLongKeys V.E) {sh : Shadow} (h : ¬ Garbled V sh tx) :
    Quiet (V.validateTx sh tx) := by
  unfold validateTx
  refine .bind (quiet_checkForm sh.domains) fun domains hForm => ?_
  split
  · exact .bind (quiet_checkOwnerless domains) fun _ _ => .pure _
  · rename_i hKey
    have hLong := nameable_of_checkForm hKeys hForm hKey
    refine .bind (quiet_checkFunds hLong sh.coins) fun balance hFunds => ?_
    refine .bind (quiet_checkDomainGates hLong domains balance) fun gates _ => ?_
    refine .bind ?_ fun _ _ => .pure _
    refine .bind (quiet_checkStake hLong sh.coins gates.1) fun staked _ => ?_
    refine .bind (quiet_checkUnstake staked.2 _) fun unstaked _ => ?_
    refine .bind (quiet_checkEquivocation unstaked fun hType hPresent hSmall => ?_) fun _ _ => .pure _
    by_contra hUndecoded
    rw [not_and_or, not_not, not_not] at hUndecoded
    exact h ⟨hType, ⟨domains, hForm⟩, hKey, ⟨balance, hFunds⟩, hPresent, hSmall, hUndecoded⟩

/-- Garbled evidence ends in `log.Panic`. -/
theorem validateTx_of_garbled {sh : Shadow} (h : Garbled V sh tx) :
    V.validateTx sh tx = .error (.panic .logPanic) := by
  obtain ⟨domains, hForm⟩ := h.form
  obtain ⟨balance, hFunds⟩ := h.funds
  have hDomains : V.checkDomainGates domains tx (hexEncode tx.ownerKey) balance =
      .ok (balance, domains) := by
    simp [checkDomainGates, checkBuy, checkListing, checkUpdateRevoke, checkRenew, checkRegister,
      checkReveal, checkTransfer, recordTx, h.type]
  have hDecode : V.checkEquivocation sh.coins tx = .error (.panic .logPanic) := by
    rw [checkEquivocation, if_pos h.type]
    refine bind_eq_error.mpr (.inr ⟨(), require_eq_ok.mpr h.present, ?_⟩)
    refine bind_eq_error.mpr (.inr ⟨(), require_eq_ok.mpr h.small, ?_⟩)
    cases hA : V.E.ungobBlock tx.equivBlockA with
    | none => exact bind_eq_error.mpr (.inl (by simp [deserializeBlock, hA, liftGo]; rfl))
    | some blockA =>
      have hB := h.undecoded.resolve_left (by simp [hA])
      refine bind_eq_error.mpr (.inr ⟨blockA, by simp [deserializeBlock, hA], ?_⟩)
      exact bind_eq_error.mpr (.inl (by simp [deserializeBlock, hB, liftGo]; rfl))
  have hStakes : V.checkStakeGates sh.coins tx (hexEncode tx.ownerKey) balance =
      .error (.panic .logPanic) := by
    simp [checkStakeGates, checkStake, checkUnstake, h.type, hDecode]
  unfold validateTx
  refine bind_eq_error.mpr (.inr ⟨domains, hForm, ?_⟩)
  rw [if_neg h.key]
  refine bind_eq_error.mpr (.inr ⟨balance, hFunds, ?_⟩)
  refine bind_eq_error.mpr (.inr ⟨(balance, domains), hDomains, ?_⟩)
  exact bind_eq_error.mpr (.inl hStakes)

/-! ## A list of transactions -/

/-- The loop reaches garbled evidence. -/
def Stumbles (V : Validation) (txs : List Transaction) : Prop :=
  ∃ before tx after sh, txs = before ++ tx :: after ∧ V.run before = .ok sh ∧ Garbled V sh tx

theorem run_panics_iff (hKeys : ParsesLongKeys V.E) {txs : List Transaction} :
    (∃ p, V.run txs = .error (.panic p)) ↔ Stumbles V txs := by
  constructor
  · rintro ⟨p, hRun⟩
    obtain ⟨before, tx, after, sh, rfl, hBefore, hStop⟩ := foldlM_eq_error.mp hRun
    refine ⟨before, tx, after, sh, rfl, hBefore, ?_⟩
    by_contra hReadable
    exact quiet_validateTx hKeys hReadable p hStop
  · rintro ⟨before, tx, after, sh, rfl, hBefore, hGarbled⟩
    exact ⟨.logPanic, foldlM_eq_error.mpr
      ⟨before, tx, after, sh, rfl, hBefore, validateTx_of_garbled hGarbled⟩⟩

theorem validateTransactions_returns_iff (hKeys : ParsesLongKeys V.E) {txs : List Transaction} :
    (∃ verdict, V.validateTransactions txs = .ok verdict) ↔ ¬ Stumbles V txs := by
  rw [← run_panics_iff hKeys]
  unfold validateTransactions
  split
  · rename_i sh hRun
    simp [hRun]
  · rename_i hRun
    simp [hRun]
  · rename_i p hRun
    simp [hRun]

end Gates

/-! ## The passes over an accepted list -/

section Passes

variable {V : Validation} {tx : Transaction} {p : Panic}

theorem nameable_of_validateTx (hKeys : ParsesLongKeys V.E) {sh sh' : Shadow}
    (h : V.validateTx sh tx = .ok sh') : Nameable tx := by
  obtain ⟨domains, hForm, -⟩ := validateTx_eq_ok h
  refine ⟨fun hNamed => nameable_of_checkForm hKeys hForm ?_, fun hType => ?_⟩
  · rcases hNamed with hKey | hType
    · exact hKey
    · exact fun hKey => hType (type_of_ownerless h hKey)
  · obtain ⟨-, spent, ⟨hOther, -⟩ | ⟨-, hLength, -⟩⟩ := checkForm_eq_ok hForm
    · exact absurd hType hOther
    · rw [length_hexEncode, hLength]
      decide

theorem debitOrLog_ne_error (ledger : BalanceLedger) {k : Bytes} (hKey : 8 ≤ k.length)
    (amount : UInt64) : debitOrLog ledger k amount ≠ .error p := by
  refine bind_ne_error (debit_ne_error ledger (fun _ => hKey) amount) fun outcome _ => ?_
  cases outcome with
  | error text => nofun
  | ok debited => nofun

theorem applyLedgerMutations_ne_error (h : Nameable tx) (ledger : BalanceLedger) :
    applyLedgerMutations tx ledger ≠ .error p := by
  unfold applyLedgerMutations
  split
  · nofun
  · rename_i hSigned
    have hKey := h.key (.inl hSigned)
    refine bind_ne_error ?_ fun charged _ => bind_ne_error ?_ fun moved _ => ?_
    · unfold applyFee
      split
      · exact debitOrLog_ne_error _ hKey _
      · nofun
    · unfold applyFund
      split
      · refine bind_ne_error (debit_ne_error _ (fun _ => hKey) _) fun outcome _ => ?_
        cases outcome with
        | error text => nofun
        | ok debited => nofun
      · nofun
    · unfold applyBond
      split
      · exact debitOrLog_ne_error _ hKey _
      · nofun

/-- Evidence that was accepted is decoded once more. -/
theorem applyStakeMutations_ne_error {sh sh' : Shadow} (h : V.validateTx sh tx = .ok sh')
    (slot : Int64) (s : StakeState) : applyStakeMutations V.E slot tx s ≠ .error p := by
  unfold applyStakeMutations
  split
  · nofun
  · rename_i hSigned
    dsimp only
    split
    · nofun
    · nofun
    · rename_i hType
      obtain ⟨hKey, -⟩ | ⟨-, -, -, -, balance, mid, hStep, -⟩ := coins_of_validateTx h
      · exact absurd hKey hSigned
      · obtain ⟨blockA, blockB, hEvidence⟩ : ∃ blockA blockB, Evidence V sh.coins tx blockA blockB := by
          cases hStep with
          | proof _ blockA blockB hEvidence => exact ⟨blockA, blockB, hEvidence⟩
          | stake hOther | unstake hOther => exact absurd (hOther.symm.trans hType) (by decide)
          | other _ _ hOther => exact absurd hType hOther
        unfold applyEquivocationProof
        split
        · nofun
        · rw [hEvidence.decodeA]
          refine bind_ne_error nofun fun block _ => ?_
          dsimp only
          split <;> nofun
    · nofun

/-- A pass over a list stops only where it stops at one of the transactions. -/
theorem foldlM_ne_error_of_run {β : Type} {txs : List Transaction} {sh : Shadow}
    (hRun : V.run txs = .ok sh) {f : β → Transaction → Go β} {start : β}
    (hStep : ∀ tx sh sh', V.validateTx sh tx = .ok sh' → ∀ acc, f acc tx ≠ .error p) :
    txs.foldlM f start ≠ .error p := by
  intro hError
  obtain ⟨before, tx, after, acc, rfl, -, hStop⟩ := foldlM_eq_error.mp hError
  obtain ⟨sh₁, sh₂, -, hTx⟩ := run_split hRun rfl
  exact hStep tx sh₁ sh₂ hTx acc hStop

end Passes

/-! ## A block -/

theorem check_ne_panic {q : Prop} [Decidable q] {reason : Reason} {p : Panic} :
    check q (BlockStop.reject reason) ≠ .error (.panic p) := by
  unfold check
  split <;> nofun

theorem liftPanic_ne_panic {α : Type} {x : Go α} {p : Panic} (h : x ≠ .error p) :
    liftPanic x ≠ .error (.panic p) := by
  cases x with
  | ok a => nofun
  | error p' =>
    exact fun hLift => h (congrArg Except.error (BlockStop.panic.inj (Except.error.inj hLift)))

theorem liftStop_eq_panic {α : Type} {x : Except Stop α} {p : Panic} :
    liftStop x = .error (.panic p) ↔ x = .error (.panic p) := by
  cases x with
  | ok a => simp [liftStop]
  | error stop => cases stop <;> simp [liftStop]

/-- The checks of `ValidateBlock` before the transactions are looked at. -/
structure HeaderFollows (E : External) (newBlock oldBlock : Block) (slotLeaderKey : Bytes) : Prop where
  index : oldBlock.index + 1 = newBlock.index
  slotNumber : oldBlock.slotNumber < newBlock.slotNumber
  prevHash : oldBlock.hash = newBlock.prevHash
  slotLeader : newBlock.slotLeader = slotLeaderKey
  signature : newBlock.verifyBlock E slotLeaderKey = true

section Header

variable {E : External} {newBlock oldBlock : Block} {slotLeaderKey : Bytes} {p : Panic}

theorem setupMerkleTree_ne_error {txs : List Transaction} (h : txs ≠ []) :
    setupMerkleTree E txs ≠ .error p := by
  have hNe : 0 < txs.length := List.length_pos_iff.mpr h
  obtain ⟨t, ht, -⟩ := levels_rootTree (show 0 < (txs.map E.gobTx).length by simpa using hNe)
  rw [setupMerkleTree_eq E hNe ht]
  nofun

/-- The header is not looked at any further in a block without transactions. -/
theorem checkHeader_panics_iff :
    (∃ p, checkHeader E newBlock oldBlock slotLeaderKey = .error (.panic p)) ↔
      HeaderFollows E newBlock oldBlock slotLeaderKey ∧ newBlock.transactions = [] := by
  constructor
  · rintro ⟨p, hPanic⟩
    by_contra hFine
    refine absurd hPanic ?_
    refine bind_ne_error check_ne_panic fun _ hIndex => ?_
    refine bind_ne_error check_ne_panic fun _ hSlot => ?_
    refine bind_ne_error check_ne_panic fun _ hPrev => ?_
    refine bind_ne_error check_ne_panic fun _ hLeader => ?_
    refine bind_ne_error check_ne_panic fun _ hSigned => ?_
    have hFollows : HeaderFollows E newBlock oldBlock slotLeaderKey :=
      ⟨check_eq_ok.mp hIndex, check_eq_ok.mp hSlot, check_eq_ok.mp hPrev, check_eq_ok.mp hLeader,
        check_eq_ok.mp hSigned⟩
    have hSome : newBlock.transactions ≠ [] := fun hNone => hFine ⟨hFollows, hNone⟩
    refine bind_ne_error (liftPanic_ne_panic (setupMerkleTree_ne_error hSome)) fun root _ => ?_
    exact bind_ne_error check_ne_panic fun _ _ => check_ne_panic
  · rintro ⟨hFollows, hNone⟩
    refine ⟨.nilDereference, ?_⟩
    refine bind_eq_error.mpr (.inr ⟨(), check_eq_ok.mpr hFollows.index, ?_⟩)
    refine bind_eq_error.mpr (.inr ⟨(), check_eq_ok.mpr hFollows.slotNumber, ?_⟩)
    refine bind_eq_error.mpr (.inr ⟨(), check_eq_ok.mpr hFollows.prevHash, ?_⟩)
    refine bind_eq_error.mpr (.inr ⟨(), check_eq_ok.mpr hFollows.slotLeader, ?_⟩)
    refine bind_eq_error.mpr (.inr ⟨(), check_eq_ok.mpr hFollows.signature, ?_⟩)
    refine bind_eq_error.mpr (.inl ?_)
    rw [hNone]
    rfl

end Header

/-- A block that stops the node: one without transactions from the slot leader, or one in which the
transactions that pass are followed by garbled evidence. -/
def Crashes (env : Env) (s : ChainState) (newBlock oldBlock : Block) (slotLeaderKey : Bytes) :
    Prop :=
  HeaderFollows env.E newBlock oldBlock slotLeaderKey ∧ newBlock.transactions = [] ∨
    checkHeader env.E newBlock oldBlock slotLeaderKey = .ok () ∧
      purgesMet (s.index.getPurgeableDomains newBlock.slotNumber) newBlock.transactions = true ∧
      Stumbles (blockValidation env s newBlock) newBlock.transactions

section Block

variable {env : Env} {order : JournalOrder} {s : ChainState} {newBlock oldBlock : Block}
  {slotLeaderKey : Bytes}

/-- No other block does. -/
theorem validateBlock_ne_panic (hKeys : ParsesLongKeys env.E)
    (h : ¬ Crashes env s newBlock oldBlock slotLeaderKey) (p : Panic) :
    validateBlock env order s newBlock oldBlock slotLeaderKey ≠ .error (.panic p) := by
  refine bind_ne_error ?_ fun _ hHeader => ?_
  · intro hPanic
    exact h (.inl (checkHeader_panics_iff.mp ⟨p, hPanic⟩))
  refine bind_ne_error check_ne_panic fun _ hPurges => ?_
  refine bind_ne_error ?_ fun sh hRun => ?_
  · intro hPanic
    have hStumbles := (run_panics_iff (V := blockValidation env s newBlock) hKeys).mp
      ⟨p, liftStop_eq_panic.mp hPanic⟩
    exact h (.inr ⟨hHeader, check_eq_ok.mp hPurges, hStumbles⟩)
  -- the transactions are accepted, and the passes over them return
  rw [liftStop_eq_ok] at hRun
  have hLedger : ∀ q, ledgerPass newBlock.transactions s.ledger ≠ .error q := fun q =>
    foldlM_ne_error_of_run hRun fun tx sh sh' hTx ledger =>
      applyLedgerMutations_ne_error (nameable_of_validateTx hKeys hTx) ledger
  have hNames : ∀ tx ∈ newBlock.transactions, Nameable tx := by
    intro tx hMem
    obtain ⟨sh₁, sh₂, hTx⟩ := foldlM_mem hRun hMem
    exact nameable_of_validateTx hKeys hTx
  have hStakes : ∀ q, stakePass env.E newBlock.slotNumber newBlock.transactions
      (openStakes s.stakes newBlock.slotNumber) ≠ .error q := fun q =>
    foldlM_ne_error_of_run hRun fun tx sh sh' hTx stakes =>
      applyStakeMutations_ne_error hTx newBlock.slotNumber stakes
  refine bind_ne_error (liftPanic_ne_panic (hLedger p)) fun ledger _ => ?_
  refine bind_ne_error check_ne_panic fun _ _ => ?_
  refine bind_ne_error (liftPanic_ne_panic (domainPass_ne_error hRun (fun _ => hNames) _))
    fun st _ => ?_
  refine bind_ne_error check_ne_panic fun _ _ => ?_
  refine bind_ne_error check_ne_panic fun _ _ => ?_
  refine bind_ne_error (liftPanic_ne_panic (hStakes p)) fun stakes _ => ?_
  refine bind_ne_error check_ne_panic fun _ _ => ?_
  exact bind_ne_error check_ne_panic fun _ _ => nofun

theorem validateBlock_of_crashes (hKeys : ParsesLongKeys env.E)
    (h : Crashes env s newBlock oldBlock slotLeaderKey) :
    ∃ p, validateBlock env order s newBlock oldBlock slotLeaderKey = .error (.panic p) := by
  rcases h with hEmpty | ⟨hHeader, hPurges, hStumbles⟩
  · obtain ⟨p, hPanic⟩ := checkHeader_panics_iff.mpr hEmpty
    exact ⟨p, bind_eq_error.mpr (.inl hPanic)⟩
  · obtain ⟨p, hPanic⟩ := (run_panics_iff (V := blockValidation env s newBlock) hKeys).mpr hStumbles
    refine ⟨p, bind_eq_error.mpr (.inr ⟨(), hHeader, ?_⟩)⟩
    refine bind_eq_error.mpr (.inr ⟨(), check_eq_ok.mpr hPurges, ?_⟩)
    exact bind_eq_error.mpr (.inl (liftStop_eq_panic.mpr hPanic))

end Block

/-- When validation returns a verdict. A block stops the node exactly if it has no transactions and
comes, signed, from the slot leader, or if its transactions reach garbled evidence; a list of
transactions, in a block or from the pool, exactly if it reaches garbled evidence. -/
theorem validation_returns_iff {env : Env} (hKeys : ParsesLongKeys env.E) :
    (∀ (order : JournalOrder) (s : ChainState) (newBlock oldBlock : Block) (slotLeaderKey : Bytes),
      (∀ p, validateBlock env order s newBlock oldBlock slotLeaderKey ≠ .error (.panic p)) ↔
        ¬ Crashes env s newBlock oldBlock slotLeaderKey) ∧
      ∀ (V : Validation) (txs : List Transaction), V.E = env.E →
        ((∃ verdict, V.validateTransactions txs = .ok verdict) ↔ ¬ Stumbles V txs) := by
  refine ⟨fun order s newBlock oldBlock slotLeaderKey => ⟨fun hReturns hCrashes => ?_, fun h => ?_⟩,
    fun V txs hE => validateTransactions_returns_iff (hE ▸ hKeys)⟩
  · obtain ⟨p, hPanic⟩ := validateBlock_of_crashes hKeys hCrashes
    exact hReturns p hPanic
  · exact validateBlock_ne_panic hKeys h

/-! ### A node that parses no short keys -/

def strictEnv : Env :=
  { StandIn.registryEnv with
    E := { External.standIn fun _ => none with
      parsePublicKey := fun key => if key.length < 4 then none else some key } }

theorem parsesLongKeys_strictEnv : ParsesLongKeys strictEnv.E := by
  intro key hParse
  by_contra hShort
  have hNone : strictEnv.E.parsePublicKey key = none := if_pos (by omega)
  rw [hNone] at hParse
  cases hParse

/-- The slot leader's block after the first one. -/
def strictBlock (txs : List Transaction) : Block :=
  let unsigned : Block :=
    { index := 1, slotNumber := 1, slotLeader := utf8 "registry", transactions := txs,
      prevHash := StandIn.registryGenesis.hash }
  { unsigned with
    signature := Blockchain.StandIn.sign (utf8 "registry")
      (strictEnv.E.sha256 (unsigned.serializeForSigning strictEnv.E)) }

/-- A proof with two single bytes as evidence. -/
def garbledProof : Transaction :=
  StandIn.registryTx { tid := 1, type := .equivocationProof, equivBlockA := [1], equivBlockB := [2] }

/-- Without such a proof both functions return. -/
theorem validation_returns_commit :
    (∀ p, validateBlock strictEnv (.ascending _ _) (genesisState strictEnv)
        (strictBlock [StandIn.commitTx 1 0 [1]]) StandIn.registryGenesis (utf8 "registry") ≠
          .error (.panic p)) ∧
      ∃ verdict, (mempoolValidation strictEnv (genesisState strictEnv) 1 1).validateTransactions
        [StandIn.commitTx 1 0 [1]] = .ok verdict := by
  obtain ⟨hBlocks, hLists⟩ := validation_returns_iff parsesLongKeys_strictEnv
  have hReadable : ∀ V : Validation, ¬ Stumbles V [StandIn.commitTx 1 0 [1]] := by
    rintro V ⟨before, tx, after, sh, hSplit, -, hGarbled⟩
    have hMem : tx ∈ [StandIn.commitTx 1 0 [1]] := hSplit ▸ by simp
    obtain rfl := List.mem_singleton.mp hMem
    exact absurd hGarbled.type (by decide)
  constructor
  · refine (hBlocks _ _ _ _ _).mpr ?_
    rintro (⟨-, hNone⟩ | ⟨-, -, hStumbles⟩)
    · exact absurd hNone (by simp [strictBlock])
    · exact hReadable _ hStumbles
  · exact (hLists _ _ rfl).mpr (hReadable _)

/-- A block without transactions, and two bytes of evidence sent to the pool, stop the node. -/
theorem empty_block_and_garbled_evidence_panic :
    ParsesLongKeys strictEnv.E ∧
      validateBlock strictEnv (.ascending _ _) (genesisState strictEnv) (strictBlock [])
        StandIn.registryGenesis (utf8 "registry") = .error (.panic .nilDereference) ∧
      (mempoolValidation strictEnv (genesisState strictEnv) 1 1).validateTransactions
        [garbledProof] = .error .logPanic := by
  refine ⟨parsesLongKeys_strictEnv, ?_, ?_⟩
  · exact eq_error_of_map (by decide +kernel)
  · decide +kernel

end Bdns.Safety
