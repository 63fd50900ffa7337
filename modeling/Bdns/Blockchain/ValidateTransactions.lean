import Bdns.Blockchain.BalanceLedger
import Bdns.Blockchain.Commit
import Bdns.Blockchain.Stake
import Bdns.Index.IndexOverlay

/-!
# Transaction validation

`ValidateTransactions` of `block.go`. A list of transactions is checked in order against the
state before it; what earlier transactions of the list change is tracked in shadow maps. Each
gate of the source is a function here, in the source's order. A gate either lets the
transaction pass, perhaps with a new shadow, or stops the validation: with a rejection, or
with a panic where the message of the rejection slices a key that is too short.
-/

namespace Bdns.Blockchain

open Lib Index

/-- How validation stops. -/
inductive Stop
  | reject
  | panic (p : Panic)
  deriving DecidableEq

/-- What is read but not changed during validation. -/
structure Validation where
  E : External
  trustedRegistries : List Bytes
  ledger : BalanceLedger
  im : DomainIndexer
  cs : CommitOverlay
  currentSlot : Int64
  slotsPerDay : Int64
  isBlockValidation : Bool
  slotLeader : Bytes
  stakeMap : StakeMap
  unstakeQueue : UnstakeQueue
  slashedEvidence : Bytes → Bool

/-- The shadow maps about domains and commits. -/
structure DomainShadow where
  spent : Int64 → Bool := fun _ => false
  forSale : Bytes → Option UInt64 := fun _ => none
  registered : Bytes → Bool := fun _ => false
  /-- Owners in hexadecimal text. -/
  owner : Bytes → Option Bytes := fun _ => none
  tx : Int64 → Option Transaction := fun _ => none
  commit : Bytes → Bool := fun _ => false

/-- The shadow maps about coins, keyed by public keys in hexadecimal text. -/
structure CoinShadow where
  nonce : Bytes → Option UInt64 := fun _ => none
  balance : Bytes → Option UInt64 := fun _ => none
  stake : Bytes → Option UInt64 := fun _ => none
  /-- Coins unstaked in this block. -/
  pendingStake : Bytes → UInt64 := fun _ => 0
  /-- Coins burned from the queue in this block. -/
  queueBurn : Bytes → UInt64 := fun _ => 0
  /-- Offences recorded in this block. -/
  equivocations : Bytes → Bool := fun _ => false

structure Shadow where
  domains : DomainShadow := {}
  coins : CoinShadow := {}

/-! ## Rejections -/

/-- Reject unless `p`. -/
def require (p : Prop) [Decidable p] : Except Stop Unit := check p .reject

/-- Reject unless `p`, with a message that shows the first eight characters of a key. -/
def requireNaming (pubKeyHex : Bytes) (p : Prop) [Decidable p] : Except Stop Unit :=
  if p then pure ()
  else if pubKeyHex.length < 8 then throw (.panic .indexOutOfRange)
  else throw .reject

/-- A panic stops validation. -/
def liftGo {α : Type} : Go α → Except Stop α
  | .ok a => .ok a
  | .error p => .error (.panic p)

@[simp] theorem require_eq_ok {p : Prop} [Decidable p] {u : Unit} : require p = .ok u ↔ p :=
  check_eq_ok

@[simp] theorem requireNaming_eq_ok {k : Bytes} {p : Prop} [Decidable p] {u : Unit} :
    requireNaming k p = .ok u ↔ p := by
  unfold requireNaming
  split
  · simp_all
  · split <;> simp_all

@[simp] theorem liftGo_eq_ok {α : Type} {x : Go α} {a : α} : liftGo x = .ok a ↔ x = .ok a := by
  cases x <;> simp [liftGo]

namespace Validation

variable (V : Validation)

/-! ## Gates on the form of a transaction -/

/-- Gate 1: a transaction with a key is signed by it. -/
def checkSignature (tx : Transaction) : Except Stop Unit :=
  require (0 < tx.ownerKey.length → verifySignature V.E tx.ownerKey tx = true)

def legacyFieldsEmpty (tx : Transaction) : Prop :=
  tx.domainName = [] ∧ tx.records = [] ∧ tx.redeemsTxID = 0 ∧ tx.recipient = []

instance (tx : Transaction) : Decidable (legacyFieldsEmpty tx) := by
  unfold legacyFieldsEmpty
  infer_instance

def equivocationFieldsEmpty (tx : Transaction) : Prop :=
  tx.equivBlockA = [] ∧ tx.equivBlockB = []

instance (tx : Transaction) : Decidable (equivocationFieldsEmpty tx) := by
  unfold equivocationFieldsEmpty
  infer_instance

/-- Gates 1.5p and 1.5q: the fields of one kind of transaction are empty in the other. A type
code without a name is subject to neither. -/
def checkHygiene (tx : Transaction) : Except Stop Unit :=
  match tx.type with
  | .stake | .unstake => require (legacyFieldsEmpty tx ∧ equivocationFieldsEmpty tx)
  | .equivocationProof => require (legacyFieldsEmpty tx ∧ tx.stakeAmount = 0)
  | .other _ _ => pure ()
  | _ => require (tx.stakeAmount = 0 ∧ equivocationFieldsEmpty tx)

/-- Gate 1.5r: REGISTER is deprecated. -/
def checkNotRegister (tx : Transaction) : Except Stop Unit := require (tx.type ≠ .register)

/-- Gate 1.5s. -/
def checkCommitFields (tx : Transaction) : Except Stop Unit :=
  require (tx.type ≠ .commit → tx.type ≠ .reveal → tx.commitHash = [] ∧ tx.salt = [])

/-- Gates 1.5 and 1.5h: a redeemed transaction is unspent and, but for a REVEAL, of the same
domain. -/
def checkRedeems (sh : DomainShadow) (tx : Transaction) : Except Stop DomainShadow :=
  if tx.redeemsTxID ≠ 0 ∧ (tx.type = .register ∨ tx.type = .update ∨ tx.type = .renew ∨
      tx.type = .revoke ∨ tx.type = .reveal) then do
    require (sh.spent tx.redeemsTxID = false)
    require (V.im.isSpent tx.redeemsTxID = false)
    if tx.type ≠ .register ∧ tx.type ≠ .reveal then
      match (sh.tx tx.redeemsTxID).or (V.im.getTxByID tx.redeemsTxID) with
      | none => throw .reject
      | some redeemsTx => require (redeemsTx.domainName = tx.domainName)
    pure { sh with spent := Function.update sh.spent tx.redeemsTxID true }
  else pure sh

/-- Gates 1.5b, 1.5c, 1.5d, 1.5f and 1.5g. -/
def checkShape (tx : Transaction) : Except Stop Unit := do
  require (tx.type = .list → tx.listPrice ≠ 0)
  require (tx.type = .register ∨ tx.type = .update ∨ tx.type = .renew → tx.records ≠ [])
  require (tx.type = .transfer → tx.recipient ≠ [])
  require (tx.type = .register → tx.redeemsTxID = 0)
  require (tx.type = .update ∨ tx.type = .renew ∨ tx.type = .revoke → tx.redeemsTxID ≠ 0)

/-- Gate 1.5c-commit. -/
def checkCommit (sh : DomainShadow) (tx : Transaction) : Except Stop DomainShadow :=
  if tx.type = .commit then do
    require (isRegistryKey V.trustedRegistries tx.ownerKey = true)
    require (tx.commitHash.length = 32)
    require (tx.domainName = [])
    require (tx.records = [])
    require (tx.redeemsTxID = 0)
    require (tx.salt = [])
    let commitHex := hexEncode tx.commitHash
    require (sh.commit commitHex = false)
    require (V.cs.getCommit commitHex = none)
    pure { sh with commit := Function.update sh.commit commitHex true }
  else pure sh

/-- The phase of a domain that validation reads from the index. -/
def phaseOf (existingTx : Transaction) : Phase :=
  getDomainPhase V.currentSlot existingTx.expirySlot V.slotsPerDay

/-- A domain exists, in a phase that is acceptable, or was registered in this block. -/
def domainIn (sh : DomainShadow) (domain : Bytes) (acceptable : Phase → Prop)
    [DecidablePred acceptable] : Except Stop Unit :=
  match V.im.getDomain domain with
  | none => require (sh.registered domain = true)
  | some existingTx => require (sh.registered domain = true ∨ acceptable (V.phaseOf existingTx))

/-- Gate 1.5e: domains on the market are active. -/
def checkMarketPhase (sh : DomainShadow) (tx : Transaction) : Except Stop Unit :=
  if tx.type = .list ∨ tx.type = .delist ∨ tx.type = .buy ∨ tx.type = .transfer then
    V.domainIn sh tx.domainName fun phase => phase = .active
  else pure ()

/-- A transaction without a key is a revocation by the slot leader. -/
def checkOwnerless (sh : DomainShadow) (tx : Transaction) : Except Stop Unit := do
  require (tx.type = .revoke)
  require (V.isBlockValidation = true)
  require (verifySignature V.E V.slotLeader tx = true)
  require (sh.registered tx.domainName = false)

/-! ## Gates on coins -/

def isTrusted (pubKeyHex : Bytes) : Bool :=
  V.trustedRegistries.any fun regKey => hexEncode regKey == pubKeyHex

def runningBalance (sh : CoinShadow) (pubKeyHex : Bytes) : UInt64 :=
  (sh.balance pubKeyHex).getD (V.ledger.getBalance pubKeyHex)

def runningNonce (sh : CoinShadow) (pubKeyHex : Bytes) : UInt64 :=
  (sh.nonce pubKeyHex).getD (V.ledger.getNonce pubKeyHex)

def runningStake (sh : CoinShadow) (pubKeyHex : Bytes) : UInt64 :=
  (sh.stake pubKeyHex).getD (V.stakeMap.getStake pubKeyHex)

/-- Gates 2, 2a and 3: fee, FUND and nonce. The balance that is left. -/
def checkFunds (sh : CoinShadow) (tx : Transaction) (pubKeyHex : Bytes) : Except Stop UInt64 := do
  let currentBalance := V.runningBalance sh pubKeyHex
  requireNaming pubKeyHex (1 ≤ tx.fee)
  if tx.type = .fund then
    requireNaming pubKeyHex (V.isTrusted pubKeyHex = true)
    require (tx.listPrice ≠ 0 ∧ tx.recipient ≠ [])
    require (¬ (tx.fee + tx.listPrice < tx.fee ∨ tx.fee + tx.listPrice < tx.listPrice))
    requireNaming pubKeyHex (tx.fee + tx.listPrice ≤ currentBalance)
  requireNaming pubKeyHex (tx.fee ≤ currentBalance)
  requireNaming pubKeyHex (tx.nonce = V.runningNonce sh pubKeyHex)
  pure (if tx.type = .fund then currentBalance - tx.fee - tx.listPrice else currentBalance - tx.fee)

/-- Gate 3.5 for STAKE: the balance and the shadow after it. -/
def checkStake (sh : CoinShadow) (tx : Transaction) (pubKeyHex : Bytes) (balance : UInt64) :
    Except Stop (UInt64 × CoinShadow) :=
  if tx.type = .stake then do
    let currentStake := V.runningStake sh pubKeyHex
    require (tx.stakeAmount ≠ 0)
    require (¬ (currentStake = 0 ∧ tx.stakeAmount < minStakeThreshold))
    require (¬ tx.fee + tx.stakeAmount < tx.fee)
    requireNaming pubKeyHex (tx.stakeAmount ≤ balance)
    pure (balance - tx.stakeAmount,
      { sh with stake := Function.update sh.stake pubKeyHex (some (currentStake + tx.stakeAmount)) })
  else pure (balance, sh)

/-- Gate 3.5 for UNSTAKE. -/
def checkUnstake (sh : CoinShadow) (tx : Transaction) (pubKeyHex : Bytes) :
    Except Stop CoinShadow :=
  if tx.type = .unstake then do
    let currentStake := V.runningStake sh pubKeyHex
    require (tx.stakeAmount ≠ 0)
    require (tx.stakeAmount ≤ currentStake)
    let remaining := currentStake - tx.stakeAmount
    require (¬ (0 < remaining ∧ remaining < minStakeThreshold))
    pure { sh with
      stake := Function.update sh.stake pubKeyHex (some remaining)
      pendingStake := Function.update sh.pendingStake pubKeyHex
        (sh.pendingStake pubKeyHex + tx.stakeAmount) }
  else pure sh

/-- The key under which an offence is recorded. -/
def offenseKey (blockA : Block) : Bytes :=
  decimalInt blockA.index.toInt ++ utf8 ":" ++ hexEncode blockA.slotLeader

/-- What a slash does to the shadow of the offender. -/
def slashShadow (sh : CoinShadow) (offenderHex : Bytes) : CoinShadow :=
  let stakePart := V.runningStake sh offenderHex
  let queuePart := V.unstakeQueue.getPendingStake offenderHex + sh.pendingStake offenderHex -
    sh.queueBurn offenderHex
  let slashAmount := computeSlashAmount (stakePart + queuePart) slashingPercent
  if slashAmount ≤ stakePart then
    { sh with stake := Function.update sh.stake offenderHex (some (stakePart - slashAmount)) }
  else
    let excess := slashAmount - stakePart
    { sh with
      stake := Function.update sh.stake offenderHex (some 0)
      queueBurn := Function.update sh.queueBurn offenderHex (sh.queueBurn offenderHex + excess)
      pendingStake := Function.update sh.pendingStake offenderHex
        (if sh.pendingStake offenderHex > excess then sh.pendingStake offenderHex - excess else 0) }

/-- Gate 3.5 for EQUIVOCATION_PROOF. -/
def checkEquivocation (sh : CoinShadow) (tx : Transaction) : Except Stop CoinShadow :=
  if tx.type = .equivocationProof then do
    require (tx.equivBlockA ≠ [] ∧ tx.equivBlockB ≠ [])
    require (tx.equivBlockA.length ≤ maxEvidenceBlockBytes ∧
      tx.equivBlockB.length ≤ maxEvidenceBlockBytes)
    let blockA ← liftGo (deserializeBlock V.E tx.equivBlockA)
    let blockB ← liftGo (deserializeBlock V.E tx.equivBlockB)
    let offenderHex := hexEncode blockA.slotLeader
    require (blockA.index = blockB.index)
    require (offenderHex = hexEncode blockB.slotLeader)
    require (blockA.hash ≠ blockB.hash)
    require (blockA.verifyBlock V.E blockA.slotLeader = true ∧
      blockB.verifyBlock V.E blockB.slotLeader = true)
    require (V.slashedEvidence (offenseKey blockA) = false ∧
      sh.equivocations (offenseKey blockA) = false)
    require (V.runningStake sh offenderHex + (V.unstakeQueue.getPendingStake offenderHex +
      sh.pendingStake offenderHex - sh.queueBurn offenderHex) ≠ 0)
    let slashed := V.slashShadow sh offenderHex
    pure { slashed with
      equivocations := Function.update slashed.equivocations (offenseKey blockA) true }
  else pure sh

/-! ## Gates on domains -/

/-- The owner of a domain in hexadecimal text, empty for none. -/
def currentOwner (sh : DomainShadow) (domain : Bytes) : Bytes :=
  (sh.owner domain).getD (((V.im.getOwner domain).map hexEncode).getD [])

def isListed (sh : DomainShadow) (domain : Bytes) : Bool :=
  match sh.forSale domain with
  | some price => 0 < price
  | none => V.im.isForSale domain

/-- BUY: listing, price and the guard against buying from oneself. -/
def checkBuy (sh : DomainShadow) (tx : Transaction) (pubKeyHex : Bytes) (balance : UInt64) :
    Except Stop (UInt64 × DomainShadow) :=
  if tx.type = .buy then do
    let listPrice := (sh.forSale tx.domainName).getD (V.im.getListPrice tx.domainName)
    require (V.isListed sh tx.domainName = true)
    requireNaming pubKeyHex (listPrice ≤ balance)
    require (listPrice ≤ tx.listPrice)
    requireNaming pubKeyHex (V.currentOwner sh tx.domainName ≠ pubKeyHex)
    pure (balance - listPrice,
      { sh with forSale := Function.update sh.forSale tx.domainName (some 0) })
  else pure (balance, sh)

/-- LIST and DELIST. -/
def checkListing (sh : DomainShadow) (tx : Transaction) (pubKeyHex : Bytes) :
    Except Stop DomainShadow :=
  if tx.type = .list ∨ tx.type = .delist then do
    requireNaming pubKeyHex (V.currentOwner sh tx.domainName = pubKeyHex)
    if tx.type = .list then
      pure { sh with forSale := Function.update sh.forSale tx.domainName (some tx.listPrice) }
    else do
      require (V.isListed sh tx.domainName = true)
      pure { sh with forSale := Function.update sh.forSale tx.domainName (some 0) }
  else pure sh

/-- UPDATE and signed REVOKE. -/
def checkUpdateRevoke (sh : DomainShadow) (tx : Transaction) (pubKeyHex : Bytes) :
    Except Stop Unit :=
  if tx.type = .update ∨ tx.type = .revoke then do
    V.domainIn sh tx.domainName fun phase => phase ≠ .purged
    requireNaming pubKeyHex (V.currentOwner sh tx.domainName = pubKeyHex)
  else pure ()

/-- RENEW is signed by a registry, not by the owner. -/
def checkRenew (sh : DomainShadow) (tx : Transaction) (pubKeyHex : Bytes) : Except Stop Unit :=
  if tx.type = .renew then do
    V.domainIn sh tx.domainName fun phase => phase ≠ .purged
    requireNaming pubKeyHex (V.isTrusted pubKeyHex = true)
  else pure ()

/-- REGISTER, which gate 1.5r has already rejected. -/
def checkRegister (sh : DomainShadow) (tx : Transaction) (pubKeyHex : Bytes) :
    Except Stop DomainShadow :=
  if tx.type = .register then do
    requireNaming pubKeyHex (isRegistryKey V.trustedRegistries tx.ownerKey = true)
    require (sh.registered tx.domainName = false)
    match V.im.getDomain tx.domainName with
    | none => pure ()
    | some existingTx => require (V.phaseOf existingTx = .purged)
    pure { sh with
      registered := Function.update sh.registered tx.domainName true
      owner := Function.update sh.owner tx.domainName (some pubKeyHex) }
  else pure sh

/-- The key of the commit that a REVEAL opens. -/
def revealKey (E : External) (tx : Transaction) : Bytes :=
  hexEncode (E.sha256 (commitPreimage tx.domainName tx.salt tx.ownerKey))

/-- REVEAL, gates R1 to R4b. -/
def checkReveal (sh : DomainShadow) (tx : Transaction) : Except Stop DomainShadow :=
  if tx.type = .reveal then do
    require (isRegistryKey V.trustedRegistries tx.ownerKey = true)
    require (tx.commitHash = [])
    require (tx.recipient ≠ [])
    let commitHex := revealKey V.E tx
    match V.cs.getCommit commitHex with
    | none => throw .reject
    | some commitRecord =>
      require (sh.commit commitHex = false)
      require (tx.redeemsTxID = commitRecord.commitTID)
      require (tx.ownerKey = commitRecord.committerPK)
      require (¬ V.currentSlot - commitRecord.commitSlot < commitMinDelay)
      require (sh.registered tx.domainName = false)
      match V.im.getDomain tx.domainName with
      | none => pure ()
      | some existingTx =>
        require (V.phaseOf existingTx = .purged)
        require (¬ commitRecord.commitSlot < computePurgeSlot existingTx.expirySlot V.slotsPerDay)
      pure { sh with
        commit := Function.update sh.commit commitHex true
        registered := Function.update sh.registered tx.domainName true
        owner := Function.update sh.owner tx.domainName (some (hexEncode tx.recipient)) }
  else pure sh

/-- TRANSFER, and the new owner after a BUY. -/
def checkTransfer (sh : DomainShadow) (tx : Transaction) (pubKeyHex : Bytes) :
    Except Stop DomainShadow :=
  if tx.type = .transfer then do
    requireNaming pubKeyHex (V.currentOwner sh tx.domainName = pubKeyHex)
    pure { sh with
      owner := Function.update sh.owner tx.domainName (some (hexEncode tx.recipient))
      forSale := Function.update sh.forSale tx.domainName (some 0) }
  else if tx.type = .buy then
    pure { sh with owner := Function.update sh.owner tx.domainName (some pubKeyHex) }
  else pure sh

/-- Transactions that later ones of the block can redeem. -/
def recordTx (sh : DomainShadow) (tx : Transaction) : DomainShadow :=
  if tx.type = .register ∨ tx.type = .update ∨ tx.type = .renew ∨ tx.type = .revoke ∨
      tx.type = .commit ∨ tx.type = .reveal then
    { sh with tx := Function.update sh.tx tx.tid (some tx) }
  else sh

/-! ## One transaction, and the list -/

/-- The gates on domains that a transaction with a key passes after those on coins. -/
def checkDomainGates (sh : DomainShadow) (tx : Transaction) (pubKeyHex : Bytes) (balance : UInt64) :
    Except Stop (UInt64 × DomainShadow) := do
  let (balance, sh) ← V.checkBuy sh tx pubKeyHex balance
  let sh ← V.checkListing sh tx pubKeyHex
  V.checkUpdateRevoke sh tx pubKeyHex
  V.checkRenew sh tx pubKeyHex
  let sh ← V.checkRegister sh tx pubKeyHex
  let sh ← V.checkReveal sh tx
  let sh ← V.checkTransfer sh tx pubKeyHex
  pure (balance, recordTx sh tx)

/-- The gates on stakes, and the new balance and nonce. -/
def checkStakeGates (sh : CoinShadow) (tx : Transaction) (pubKeyHex : Bytes) (balance : UInt64) :
    Except Stop CoinShadow := do
  let nonce := V.runningNonce sh pubKeyHex
  let (balance, sh) ← V.checkStake sh tx pubKeyHex balance
  let sh ← V.checkUnstake sh tx pubKeyHex
  let sh ← V.checkEquivocation sh tx
  pure { sh with
    nonce := Function.update sh.nonce pubKeyHex (some (nonce + 1))
    balance := Function.update sh.balance pubKeyHex (some balance) }

/-- The gates before the first look at coins. -/
def checkForm (sh : DomainShadow) (tx : Transaction) : Except Stop DomainShadow := do
  V.checkSignature tx
  checkHygiene tx
  checkNotRegister tx
  checkCommitFields tx
  let sh ← V.checkRedeems sh tx
  checkShape tx
  let sh ← V.checkCommit sh tx
  V.checkMarketPhase sh tx
  pure sh

/-- One pass of the loop of `ValidateTransactions`. -/
def validateTx (sh : Shadow) (tx : Transaction) : Except Stop Shadow := do
  let domains ← V.checkForm sh.domains tx
  if tx.ownerKey.length = 0 then
    V.checkOwnerless domains tx
    pure { sh with domains }
  else
    let pubKeyHex := hexEncode tx.ownerKey
    let balance ← V.checkFunds sh.coins tx pubKeyHex
    let (balance, domains) ← V.checkDomainGates domains tx pubKeyHex balance
    let coins ← V.checkStakeGates sh.coins tx pubKeyHex balance
    pure { domains, coins }

/-- The loop, with the shadow at its end. -/
def run (txs : List Transaction) : Except Stop Shadow := txs.foldlM V.validateTx {}

/-- `ValidateTransactions`. -/
def validateTransactions (txs : List Transaction) : Go Bool :=
  match V.run txs with
  | .ok _ => pure true
  | .error .reject => pure false
  | .error (.panic p) => throw p

variable {V}

theorem validateTransactions_eq_true {txs : List Transaction} :
    V.validateTransactions txs = .ok true ↔ ∃ sh, V.run txs = .ok sh := by
  unfold validateTransactions
  cases V.run txs with
  | ok sh => simp
  | error stop => cases stop <;> simp

end Validation

end Bdns.Blockchain
