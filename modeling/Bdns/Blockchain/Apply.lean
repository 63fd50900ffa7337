import Bdns.Blockchain.ValidateTransactions

/-!
# Applying transactions

`apply.go`. A block is applied in three passes: nonces, fees and the other coin movements of
the ledger; domains, commits and the price of a BUY; stakes and slashes. The functions of the
second pass return an error text; their callers drop it.
-/

namespace Bdns.Blockchain

open Lib Index

/-! ## The ledger -/

/-- A `Debit` whose error is only logged. -/
def debitOrLog (ledger : BalanceLedger) (pubKeyHex : Bytes) (amount : UInt64) :
    Go BalanceLedger := do
  match ← ledger.debit pubKeyHex amount with
  | .ok debited => pure debited
  | .error _ => pure ledger

section Ledger

variable (tx : Transaction) (pubKeyHex : Bytes) (ledger : BalanceLedger)

def applyFee : Go BalanceLedger :=
  if 0 < tx.fee then debitOrLog ledger pubKeyHex tx.fee else pure ledger

/-- A FUND is credited only if its debit succeeds. -/
def applyFund : Go BalanceLedger :=
  if tx.type = .fund ∧ 0 < tx.recipient.length ∧ 0 < tx.listPrice then do
    match ← ledger.debit pubKeyHex tx.listPrice with
    | .ok debited => pure (debited.credit (hexEncode tx.recipient) tx.listPrice)
    | .error _ => pure ledger
  else pure ledger

/-- A STAKE takes its coins from the account here; `applyStakeMutations` adds them. -/
def applyBond : Go BalanceLedger :=
  if tx.type = .stake ∧ 0 < tx.stakeAmount then debitOrLog ledger pubKeyHex tx.stakeAmount
  else pure ledger

def applyLedgerMutations : Go BalanceLedger :=
  if tx.ownerKey.length = 0 then pure ledger
  else do
    let pubKeyHex := hexEncode tx.ownerKey
    let ledger ← applyFee tx pubKeyHex (ledger.incrementNonce pubKeyHex)
    let ledger ← applyFund tx pubKeyHex ledger
    applyBond tx pubKeyHex ledger

end Ledger

/-! ## Stakes -/

structure StakeState where
  stakeMap : StakeMap
  unstakeQueue : UnstakeQueue
  slashedEvidence : Bytes → Bool

/-- The slash of an offender: the stake first, then the queue. -/
def slash (offenderHex : Bytes) (s : StakeState) : StakeState :=
  let stakedNow := s.stakeMap.getStake offenderHex
  let totalSlashable := stakedNow + s.unstakeQueue.getPendingStake offenderHex
  let slashAmount := computeSlashAmount totalSlashable slashingPercent
  if slashAmount ≤ stakedNow then
    { s with stakeMap := s.stakeMap.reduceStake offenderHex slashAmount }
  else
    { s with
      stakeMap := s.stakeMap.reduceStake offenderHex stakedNow
      unstakeQueue := (s.unstakeQueue.burnPending offenderHex (slashAmount - stakedNow)).1 }

/-- The EQUIVOCATION_PROOF case of `ApplyStakeMutations`, which reads the first block only. -/
def applyEquivocationProof (E : External) (tx : Transaction) (s : StakeState) : Go StakeState :=
  if tx.equivBlockA.length = 0 then pure s
  else do
    let blockA ← deserializeBlock E tx.equivBlockA
    let offenseKey := Validation.offenseKey blockA
    if s.slashedEvidence offenseKey then pure s
    else
      let slashed := slash (hexEncode blockA.slotLeader) s
      pure { slashed with
        slashedEvidence := Function.update slashed.slashedEvidence offenseKey true }

def applyStakeMutations (E : External) (currentSlot : Int64) (tx : Transaction) (s : StakeState) :
    Go StakeState :=
  if tx.ownerKey.length = 0 then pure s
  else
    let pubKeyHex := hexEncode tx.ownerKey
    match tx.type with
    | .stake => pure { s with stakeMap := s.stakeMap.addStake pubKeyHex tx.stakeAmount }
    | .unstake =>
      pure { s with
        stakeMap := s.stakeMap.reduceStake pubKeyHex tx.stakeAmount
        unstakeQueue := s.unstakeQueue.enqueue pubKeyHex tx.stakeAmount
          (currentSlot.toUInt64 + unstakeDelaySlots) }
    | .equivocationProof => applyEquivocationProof E tx s
    | _ => pure s

/-! ## Domains -/

/-- What the second pass changes. -/
structure DomainState where
  ledger : BalanceLedger
  im : IndexOverlay
  cs : CommitOverlay

/-- The position of the transaction that is applied. -/
structure Position where
  currentSlot : Int64
  blockIndex : Int64
  txIndex : Nat
  slotsPerDay : Int64
  /-- The order in which `GetTxByID` visits the journal in this call. -/
  range : List (Bytes × OverlayEntry) → List (Bytes × OverlayEntry)

/-- The new state and the text of an error, if there was one. -/
abbrev DomainResult := Go (DomainState × Option Bytes)

section Domains

variable (E : External) (pos : Position) (tx : Transaction) (st : DomainState)

/-- The phase of the domain in the index, unless it is acceptable. -/
def phaseOutside (acceptable : Phase → Bool) : Option Phase :=
  (st.im.getDomain E tx.domainName).bind fun existingTx =>
    let phase := getDomainPhase pos.currentSlot existingTx.expirySlot pos.slotsPerDay
    if acceptable phase then none else some phase

/-- `im.Add` as all cases call it: the slot goes where the index expects a block index. -/
def addDomain (storeTx : Transaction) : IndexOverlay :=
  st.im.add tx.domainName storeTx pos.currentSlot pos.txIndex pos.slotsPerDay

def applyRegister : DomainResult :=
  match phaseOutside E pos tx st (· == .purged) with
  | some phase =>
    pure (st, some (utf8 "REGISTER failed: domain " ++ tx.domainName ++ utf8 " exists in " ++
      phase.text ++ utf8 " phase"))
  | none =>
    if tx.redeemsTxID ≠ 0 then
      pure (st, some (utf8 "REGISTER failed: RedeemsTxID must be 0 for new registrations"))
    else
      pure ({ st with
        im := (addDomain pos tx st tx).setOwner E tx.domainName (some tx.ownerKey) }, none)

/-- COMMIT: the log line slices the hash after the record is stored. -/
def applyCommit : DomainResult :=
  if (hexEncode tx.commitHash).length < 16 then throw .indexOutOfRange
  else
    pure ({ st with
      cs := st.cs.addCommit
        { commitHash := tx.commitHash, committerPK := tx.ownerKey, commitBlock := pos.blockIndex
          commitSlot := pos.currentSlot, commitTID := tx.tid
          expiryBlock := pos.blockIndex + commitMaxWindow } }, none)

def applyReveal : DomainResult :=
  let commitHex := Validation.revealKey E tx
  match st.cs.getCommit commitHex with
  | none =>
    pure (st, some (utf8 "REVEAL failed: no pending COMMIT for hash " ++ commitHex.take 16))
  | some _ =>
    match phaseOutside E pos tx st (· == .purged) with
    | some phase =>
      pure (st, some (utf8 "REVEAL failed: domain " ++ tx.domainName ++ utf8 " exists in " ++
        phase.text ++ utf8 " phase"))
    | none =>
      pure ({ st with
        im := ((addDomain pos tx st tx).setOwner E tx.domainName (some tx.recipient)).markAsSpent
          tx.redeemsTxID
        cs := st.cs.consumeCommit commitHex }, none)

/-- The owner is known and is the signer. -/
def ownedBySigner : Bool :=
  (st.im.getOwner E tx.domainName).any fun owner => hexEncode owner == hexEncode tx.ownerKey

/-- The redeemed transaction is of this domain. -/
def redeemsOwnDomain : Bool :=
  (st.im.getTxByID pos.range tx.redeemsTxID).any fun redeemsTx =>
    redeemsTx.domainName == tx.domainName

/-- The end of REVOKE: the domain keeps its owner. -/
def revokeDomain : DomainState :=
  let spent := if tx.redeemsTxID ≠ 0 then st.im.markAsSpent tx.redeemsTxID else st.im
  let added := addDomain pos tx { st with im := spent } tx
  { st with
    im := match st.im.getOwner E tx.domainName with
      | some existingOwner => added.setOwner E tx.domainName (some existingOwner)
      | none => added }

def applyRevoke : DomainResult :=
  if 0 < tx.ownerKey.length ∧ ownedBySigner E tx st = false then do
    let short ← keyPrefix (hexEncode tx.ownerKey)
    pure (st, some (utf8 "REVOKE failed: " ++ short ++ utf8 " is not the owner of " ++
      tx.domainName))
  else if tx.redeemsTxID ≠ 0 ∧ redeemsOwnDomain pos tx st = false then
    pure (st, some (utf8 "REVOKE failed: RedeemsTxID " ++ decimalInt tx.redeemsTxID.toInt ++
      utf8 " does not belong to domain " ++ tx.domainName))
  else if tx.ownerKey.length = 0 then
    match st.im.getDomain E tx.domainName with
    | none =>
      pure (st, some (utf8 "auto-REVOKE failed: domain " ++ tx.domainName ++ utf8 " not found"))
    | some existingTx =>
      if getDomainPhase pos.currentSlot existingTx.expirySlot pos.slotsPerDay = .active then
        pure (st, some (utf8 "auto-REVOKE failed: domain " ++ tx.domainName ++
          utf8 " is still in active phase"))
      else pure (revokeDomain E pos tx st, none)
  else pure (revokeDomain E pos tx st, none)

/-- What UPDATE and RENEW store: a RENEW keeps the records of the domain. -/
def storeTx (isRenew : Bool) : Transaction :=
  match isRenew, st.im.getDomain E tx.domainName with
  | true, some currentDomainTx =>
    if 0 < currentDomainTx.records.length then { tx with records := currentDomainTx.records }
    else tx
  | _, _ => tx

/-- The end of UPDATE and RENEW: the domain keeps its price and its owner. -/
def replaceDomain (isRenew : Bool) : DomainState :=
  let added := addDomain pos tx { st with im := st.im.markAsSpent tx.redeemsTxID }
    (storeTx E tx st isRenew)
  let priced :=
    if 0 < st.im.getListPrice E tx.domainName then
      added.setListPrice E tx.domainName (st.im.getListPrice E tx.domainName)
    else added
  { st with
    im := match st.im.getOwner E tx.domainName with
      | some existingOwner => priced.setOwner E tx.domainName (some existingOwner)
      | none => priced }

def applyUpdateOrRenew (isRenew : Bool) : DomainResult :=
  let opName := if isRenew then utf8 "RENEW" else utf8 "UPDATE"
  if tx.redeemsTxID = 0 then
    pure (st, some (opName ++ utf8 " failed: RedeemsTxID must be non-zero (provenance chain)"))
  else if redeemsOwnDomain pos tx st = false then
    pure (st, some (opName ++ utf8 " failed: RedeemsTxID " ++ decimalInt tx.redeemsTxID.toInt ++
      utf8 " does not belong to domain " ++ tx.domainName))
  else pure (replaceDomain E pos tx st isRenew, none)

def applyUpdate : DomainResult :=
  if ownedBySigner E tx st = false then do
    let short ← keyPrefix (hexEncode tx.ownerKey)
    pure (st, some (utf8 "UPDATE failed: " ++ short ++ utf8 " is not the owner of " ++
      tx.domainName))
  else
    match phaseOutside E pos tx st (· == .active) with
    | some phase =>
      pure (st, some (utf8 "UPDATE failed: domain " ++ tx.domainName ++ utf8 " is in " ++
        phase.text ++ utf8 " phase (must be active)"))
    | none => applyUpdateOrRenew E pos tx st false

def applyRenew : DomainResult :=
  match phaseOutside E pos tx st (· != .purged) with
  | some _ =>
    pure (st, some (utf8 "RENEW failed: domain " ++ tx.domainName ++
      utf8 " is in purged phase (must re-register)"))
  | none => applyUpdateOrRenew E pos tx st true

/-- The market operations look at the domain's transaction without a nil check. -/
def inActivePhase : Go Bool :=
  match st.im.getDomain E tx.domainName with
  | none => throw .nilDereference
  | some domTx =>
    pure (getDomainPhase pos.currentSlot domTx.expirySlot pos.slotsPerDay == .active)

def applyList : DomainResult := do
  if !(← inActivePhase E pos tx st) then
    pure (st, some (utf8 "LIST failed: " ++ tx.domainName ++ utf8 " is not in active phase"))
  else
    match st.im.getOwner E tx.domainName with
    | none => pure (st, some (utf8 "LIST: domain " ++ tx.domainName ++ utf8 " not found"))
    | some currentOwner =>
      if hexEncode currentOwner ≠ hexEncode tx.ownerKey then do
        let short ← keyPrefix (hexEncode tx.ownerKey)
        pure (st, some (utf8 "LIST: " ++ short ++ utf8 " is not the owner"))
      else pure ({ st with im := st.im.setListPrice E tx.domainName tx.listPrice }, none)

def applyDelist : DomainResult := do
  if !(← inActivePhase E pos tx st) then
    pure (st, some (utf8 "DELIST failed: " ++ tx.domainName ++ utf8 " is not in active phase"))
  else
    match st.im.getOwner E tx.domainName with
    | none =>
      pure (st, some (utf8 "DELIST: " ++ tx.domainName ++ utf8 " is not listed for sale"))
    | some currentOwner =>
      if st.im.isForSale E tx.domainName = false then
        pure (st, some (utf8 "DELIST: " ++ tx.domainName ++ utf8 " is not listed for sale"))
      else if hexEncode currentOwner ≠ hexEncode tx.ownerKey then do
        let short ← keyPrefix (hexEncode tx.ownerKey)
        pure (st, some (utf8 "DELIST: " ++ short ++ utf8 " is not the owner"))
      else pure ({ st with im := st.im.setListPrice E tx.domainName 0 }, none)

/-- The end of BUY, once the buyer has paid. -/
def buyDomain (paid : BalanceLedger) (sellerKeyHex : Bytes) (listPrice : UInt64) : DomainState :=
  { st with
    ledger := paid.credit sellerKeyHex listPrice
    im := (st.im.setOwner E tx.domainName (some tx.ownerKey)).setListPrice E tx.domainName 0 }

def applyBuyDomain : DomainResult := do
  let buyerKeyHex := hexEncode tx.ownerKey
  if !(← inActivePhase E pos tx st) then
    pure (st, some (utf8 "BUY failed: " ++ tx.domainName ++ utf8 " is not in active phase"))
  else if st.im.isForSale E tx.domainName = false then
    pure (st, some (utf8 "BUY failed: " ++ tx.domainName ++ utf8 " is not listed ForSale"))
  else
    let sellerKeyHex := hexEncode ((st.im.getOwner E tx.domainName).getD [])
    let listPrice := st.im.getListPrice E tx.domainName
    if buyerKeyHex = sellerKeyHex then do
      let short ← keyPrefix buyerKeyHex
      pure (st, some (utf8 "BUY failed: buyer and seller are the same key (" ++ short ++
        utf8 ") — use DELIST"))
    else if tx.listPrice < listPrice then
      pure (st, some (utf8 "BUY failed: buyer's MaxPrice " ++ decimal tx.listPrice.toNat ++
        utf8 " < current listPrice " ++ decimal listPrice.toNat))
    else
      match ← st.ledger.debit buyerKeyHex listPrice with
      | .error err => do
        let short ← keyPrefix buyerKeyHex
        pure (st, some (utf8 "BUY failed: buyer " ++ short ++ utf8 " cannot cover listPrice " ++
          decimal listPrice.toNat ++ utf8 ": " ++ err))
      | .ok paid => pure (buyDomain E tx st paid sellerKeyHex listPrice, none)

def applyTransferDomain : DomainResult := do
  if !(← inActivePhase E pos tx st) then
    pure (st, some (utf8 "TRANSFER failed: " ++ tx.domainName ++ utf8 " is not in active phase"))
  else
    match st.im.getOwner E tx.domainName with
    | none => pure (st, some (utf8 "TRANSFER failed: domain " ++ tx.domainName ++ utf8 " not found"))
    | some currentOwner =>
      if hexEncode currentOwner ≠ hexEncode tx.ownerKey then do
        let short ← keyPrefix (hexEncode tx.ownerKey)
        pure (st, some (utf8 "TRANSFER failed: " ++ short ++ utf8 " is not the owner of " ++
          tx.domainName))
      else
        pure ({ st with
          im := (st.im.setOwner E tx.domainName (some tx.recipient)).setListPrice E
            tx.domainName 0 }, none)

/-- `ApplyDomainMutations`. -/
def applyDomainMutations : DomainResult :=
  match tx.type with
  | .register => applyRegister E pos tx st
  | .commit => applyCommit pos tx st
  | .reveal => applyReveal E pos tx st
  | .revoke => applyRevoke E pos tx st
  | .update => applyUpdate E pos tx st
  | .renew => applyRenew E pos tx st
  | .list => applyList E pos tx st
  | .buy => applyBuyDomain E pos tx st
  | .transfer => applyTransferDomain E pos tx st
  | .delist => applyDelist E pos tx st
  | .fund | .stake | .unstake | .equivocationProof | .other _ _ => pure (st, none)

end Domains

end Bdns.Blockchain
