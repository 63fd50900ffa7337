import Bdns.Blockchain.Apply
import Bdns.Blockchain.Merkle

/-!
# Block validation

`ValidateBlock` of `block.go`: the header, the purge obligations, the transactions, and then
the three passes of application on staging copies, with the five state hashes of the block
checked on the way.
-/

namespace Bdns.Blockchain

open Lib Index

/-- What a node is configured with. -/
structure Env where
  E : External
  trustedRegistries : List Bytes
  slotsPerDay : Int64

/-- The state that blocks change. -/
structure ChainState where
  ledger : BalanceLedger := {}
  index : IndexManager := {}
  commitStore : CommitStore := {}
  stakes : StakeState := ⟨{}, {}, fun _ => false⟩

/-- The orders of the loops over a journal: one for every transaction, then one for each of
the two commits. -/
abbrev JournalOrder := RangeOrder Bytes OverlayEntry

/-! ## The passes over a block -/

/-- The running `uint64` sum of all fees. -/
def totalFees (txs : List Transaction) : UInt64 := txs.foldl (fun total tx => total + tx.fee) 0

def creditFees (txs : List Transaction) (slotLeader : Bytes) (ledger : BalanceLedger) :
    BalanceLedger :=
  if 0 < totalFees txs then ledger.credit (hexEncode slotLeader) (totalFees txs) else ledger

/-- Nonces and coins of all transactions. -/
def ledgerPass (txs : List Transaction) (ledger : BalanceLedger) : Go BalanceLedger :=
  txs.foldlM (fun ledger tx => applyLedgerMutations tx ledger) ledger

/-- Where the `i`-th transaction of a block stands. -/
def Env.position (env : Env) (order : JournalOrder) (slot blockIndex : Int64) (i : Nat) :
    Position :=
  { currentSlot := slot, blockIndex, txIndex := i, slotsPerDay := env.slotsPerDay
    range := order.run i }

/-- Domains of all transactions; errors are dropped. -/
def domainPass (env : Env) (order : JournalOrder) (slot blockIndex : Int64)
    (txs : List Transaction) (st : DomainState) : Go DomainState :=
  txs.zipIdx.foldlM (fun st e => do
    let (st, _) ← applyDomainMutations env.E (env.position order slot blockIndex e.2) e.1 st
    pure st) st

/-- Stakes of all transactions. -/
def stakePass (E : External) (slot : Int64) (txs : List Transaction) (s : StakeState) :
    Go StakeState :=
  txs.foldlM (fun s tx => applyStakeMutations E slot tx s) s

/-- The leader makes one pass of the first and the third, and applies coins and stakes of each
transaction in turn. -/
def leaderPass (E : External) (slot : Int64) (txs : List Transaction)
    (acc : BalanceLedger × StakeState) : Go (BalanceLedger × StakeState) :=
  txs.foldlM (fun acc tx => do
    let ledger ← applyLedgerMutations tx acc.1
    let stakes ← applyStakeMutations E slot tx acc.2
    pure (ledger, stakes)) acc

/-- The commit overlay in which a block is processed. -/
def openCommits (cs : CommitStore) (blockIndex : Int64) : CommitOverlay :=
  (CommitOverlay.newCommitOverlay cs blockIndex).purgeExpired blockIndex

/-- The stakes with which a block starts: matured entries leave the queue, and nothing else
happens to their coins. -/
def openStakes (s : StakeState) (slot : Int64) : StakeState :=
  { s with unstakeQueue := (s.unstakeQueue.sweepMature slot.toUInt64).1 }

theorem domainPass_append_singleton (env : Env) (order : JournalOrder) (slot blockIndex : Int64)
    (txs : List Transaction) (tx : Transaction) (st : DomainState) :
    domainPass env order slot blockIndex (txs ++ [tx]) st =
      (domainPass env order slot blockIndex txs st >>= fun st =>
        applyDomainMutations env.E (env.position order slot blockIndex txs.length) tx st >>=
          fun result => pure result.1) := by
  unfold domainPass
  simp [List.zipIdx_append, List.foldlM_append]

/-- A pass that ends has passed over every first part of its list. -/
theorem domainPass_before {env : Env} {order : JournalOrder} {slot blockIndex : Int64}
    {before rest : List Transaction} {start final : DomainState}
    (h : domainPass env order slot blockIndex (before ++ rest) start = .ok final) :
    ∃ st, domainPass env order slot blockIndex before start = .ok st := by
  unfold domainPass at h ⊢
  rw [List.zipIdx_append, foldlM_append_eq_ok] at h
  obtain ⟨st, hBefore, -⟩ := h
  exact ⟨st, hBefore⟩

/-- A domain pass over a list cut in two: the first part, one transaction, the rest. -/
theorem domainPass_split {env : Env} {order : JournalOrder} {slot blockIndex : Int64}
    {txs before after : List Transaction} {tx : Transaction} {start final : DomainState}
    (hSplit : txs = before ++ tx :: after)
    (h : domainPass env order slot blockIndex txs start = .ok final) :
    ∃ st st' err, domainPass env order slot blockIndex before start = .ok st ∧
      applyDomainMutations env.E (env.position order slot blockIndex before.length) tx st =
        .ok (st', err) ∧
      domainPass env order slot blockIndex (before ++ [tx]) start = .ok st' := by
  rw [hSplit, List.append_cons] at h
  obtain ⟨st', hFirst⟩ := domainPass_before h
  have hStep := hFirst
  rw [domainPass_append_singleton] at hStep
  obtain ⟨st, hBefore, hRest⟩ := bind_eq_ok.mp hStep
  obtain ⟨⟨st₁, err⟩, hApply, hSame⟩ := bind_eq_ok.mp hRest
  obtain rfl := pure_eq_ok.mp hSame
  exact ⟨st, st₁, err, hBefore, hApply, hFirst⟩

theorem domainPass_concat {env : Env} {order : JournalOrder} {slot blockIndex : Int64}
    {before : List Transaction} {tx : Transaction} {start st st' : DomainState}
    {err : Option Bytes} (hBefore : domainPass env order slot blockIndex before start = .ok st)
    (hApply : applyDomainMutations env.E (env.position order slot blockIndex before.length) tx st =
      .ok (st', err)) :
    domainPass env order slot blockIndex (before ++ [tx]) start = .ok st' := by
  rw [domainPass_append_singleton]
  exact bind_eq_ok.mpr ⟨st, hBefore, bind_eq_ok.mpr ⟨_, hApply, rfl⟩⟩

/-- What every domain mutation of a pass keeps, the rest of the pass keeps. -/
theorem domainPass_invariant_from {env : Env} {order : JournalOrder} {slot blockIndex : Int64}
    {before rest : List Transaction} (I : DomainState → Prop) {start st final : DomainState}
    (hStep : ∀ tx ∈ rest, ∀ i st st' err, I st →
      applyDomainMutations env.E (env.position order slot blockIndex i) tx st = .ok (st', err) →
      I st')
    (hBefore : domainPass env order slot blockIndex before start = .ok st) (hInit : I st)
    (h : domainPass env order slot blockIndex (before ++ rest) start = .ok final) : I final := by
  unfold domainPass at h hBefore
  rw [List.zipIdx_append, foldlM_append_eq_ok] at h
  obtain ⟨st₁, hBefore₁, hRest⟩ := h
  obtain rfl : st = st₁ := Except.ok.inj (hBefore.symm.trans hBefore₁)
  refine foldlM_invariant I ?_ hInit hRest
  rintro ⟨tx, i⟩ hMem st st' hI hBody
  obtain ⟨⟨st₁, err⟩, hApply, hSame⟩ := bind_eq_ok.mp hBody
  obtain rfl := pure_eq_ok.mp hSame
  exact hStep tx (List.fst_mem_of_mem_zipIdx hMem) i st st₁ err hI hApply

theorem domainPass_invariant {env : Env} {order : JournalOrder} {slot blockIndex : Int64}
    {txs : List Transaction} (I : DomainState → Prop) {start final : DomainState}
    (hStep : ∀ tx ∈ txs, ∀ i st st' err, I st →
      applyDomainMutations env.E (env.position order slot blockIndex i) tx st = .ok (st', err) →
      I st')
    (hInit : I start) (h : domainPass env order slot blockIndex txs start = .ok final) :
    I final :=
  have hNil : domainPass env order slot blockIndex [] start = .ok start := rfl
  domainPass_invariant_from I hStep hNil hInit h

/-! ## The checks -/

inductive Reason
  | index
  | slotNumber
  | prevHash
  | slotLeader
  | signature
  | merkleRoot
  | hash
  | missingPurge
  | transactions
  | balanceLedgerHash
  | indexHash
  | commitStoreHash
  | stakeMapHash
  | unstakeQueueHash
  deriving DecidableEq

inductive BlockStop
  | reject (reason : Reason)
  | panic (p : Panic)
  deriving DecidableEq

/-- A panic stops the validation of a block. -/
def liftPanic {α : Type} : Go α → Except BlockStop α
  | .ok a => .ok a
  | .error p => .error (.panic p)

/-- A transaction that does not pass stops the validation of a block. -/
def liftStop {α : Type} : Except Stop α → Except BlockStop α
  | .ok a => .ok a
  | .error .reject => .error (.reject .transactions)
  | .error (.panic p) => .error (.panic p)

@[simp] theorem liftPanic_eq_ok {α : Type} {x : Go α} {a : α} :
    liftPanic x = .ok a ↔ x = .ok a := by
  cases x <;> simp [liftPanic]

@[simp] theorem liftStop_eq_ok {α : Type} {x : Except Stop α} {a : α} :
    liftStop x = .ok a ↔ x = .ok a := by
  cases x with
  | ok b => simp [liftStop]
  | error s => cases s <;> simp [liftStop]

def checkHeader (E : External) (newBlock oldBlock : Block) (slotLeaderKey : Bytes) :
    Except BlockStop Unit := do
  check (oldBlock.index + 1 = newBlock.index) (.reject .index)
  check (oldBlock.slotNumber < newBlock.slotNumber) (.reject .slotNumber)
  check (oldBlock.hash = newBlock.prevHash) (.reject .prevHash)
  check (newBlock.slotLeader = slotLeaderKey) (.reject .slotLeader)
  check (newBlock.verifyBlock E slotLeaderKey = true) (.reject .signature)
  let root ← liftPanic (setupMerkleTree E newBlock.transactions)
  check (newBlock.merkleRootHash = root) (.reject .merkleRoot)
  check (newBlock.hash = newBlock.computeHash E) (.reject .hash)

/-- What links an accepted block to the one before it. -/
theorem checkHeader_eq_ok {E : External} {newBlock oldBlock : Block} {slotLeaderKey : Bytes}
    (h : checkHeader E newBlock oldBlock slotLeaderKey = .ok ()) :
    oldBlock.index + 1 = newBlock.index ∧ oldBlock.slotNumber < newBlock.slotNumber ∧
      oldBlock.hash = newBlock.prevHash ∧ newBlock.slotLeader = slotLeaderKey ∧
      newBlock.hash = newBlock.computeHash E := by
  unfold checkHeader at h
  obtain ⟨_, hIndex, h⟩ := bind_eq_ok.mp h
  obtain ⟨_, hSlot, h⟩ := bind_eq_ok.mp h
  obtain ⟨_, hPrev, h⟩ := bind_eq_ok.mp h
  obtain ⟨_, hLeader, h⟩ := bind_eq_ok.mp h
  obtain ⟨_, -, h⟩ := bind_eq_ok.mp h
  obtain ⟨root, -, h⟩ := bind_eq_ok.mp h
  obtain ⟨_, -, hHash⟩ := bind_eq_ok.mp h
  exact ⟨check_eq_ok.mp hIndex, check_eq_ok.mp hSlot, check_eq_ok.mp hPrev,
    check_eq_ok.mp hLeader, check_eq_ok.mp hHash⟩

/-- Every domain whose purge slot is the block's slot is revoked or renewed in the block. -/
def purgesMet (purgeable txs : List Transaction) : Bool :=
  purgeable.all fun expected =>
    (txs.any fun tx => tx.type = .renew && tx.domainName == expected.domainName) ||
      txs.any fun tx => tx.type = .revoke && tx.domainName == expected.domainName &&
        tx.redeemsTxID == expected.tid

/-- The context in which the transactions of a block are validated. -/
def blockValidation (env : Env) (s : ChainState) (newBlock : Block) : Validation where
  E := env.E
  trustedRegistries := env.trustedRegistries
  ledger := s.ledger
  im := (IndexOverlay.newIndexOverlay s.index).indexer env.E id
  cs := openCommits s.commitStore newBlock.index
  currentSlot := newBlock.slotNumber
  slotsPerDay := env.slotsPerDay
  isBlockValidation := true
  slotLeader := newBlock.slotLeader
  stakeMap := s.stakes.stakeMap
  unstakeQueue := s.stakes.unstakeQueue
  slashedEvidence := s.stakes.slashedEvidence

/-- The staging copies after a block. -/
structure Staged where
  ledger : BalanceLedger
  im : IndexOverlay
  cs : CommitOverlay
  stakes : StakeState

/-- `ValidateBlock` over a fresh index overlay, up to the final commit of the overlay. The
journal of the fresh overlay is empty while the transactions are validated, so the order in
which `GetTxByID` would visit it does not show. -/
def validateBlock (env : Env) (order : JournalOrder) (s : ChainState) (newBlock oldBlock : Block)
    (slotLeaderKey : Bytes) : Except BlockStop Staged := do
  checkHeader env.E newBlock oldBlock slotLeaderKey
  check (purgesMet (s.index.getPurgeableDomains newBlock.slotNumber) newBlock.transactions = true)
    (.reject .missingPurge)
  let _ ← liftStop ((blockValidation env s newBlock).run newBlock.transactions)
  let ledger ← liftPanic (ledgerPass newBlock.transactions s.ledger)
  let ledger := creditFees newBlock.transactions newBlock.slotLeader ledger
  check (newBlock.balanceLedgerHash = ledger.hash env.E) (.reject .balanceLedgerHash)
  let st ← liftPanic (domainPass env order newBlock.slotNumber newBlock.index newBlock.transactions
    ⟨ledger, .newIndexOverlay s.index, openCommits s.commitStore newBlock.index⟩)
  check (newBlock.indexHash = st.im.getIndexHash env.E) (.reject .indexHash)
  check (newBlock.commitStoreHash = st.cs.hash env.E) (.reject .commitStoreHash)
  let stakes ← liftPanic (stakePass env.E newBlock.slotNumber newBlock.transactions
    (openStakes s.stakes newBlock.slotNumber))
  check (newBlock.stakeMapHash = stakes.stakeMap.hash env.E) (.reject .stakeMapHash)
  check (newBlock.unstakeQueueHash = stakes.unstakeQueue.hash env.E) (.reject .unstakeQueueHash)
  pure ⟨st.ledger, st.im, st.cs, stakes⟩

/-- What an accepted block stages, apart from the checks. -/
structure Stages (env : Env) (order : JournalOrder) (s : ChainState) (b : Block)
    (staged : Staged) : Prop where
  ledger : ∃ ledger st, ledgerPass b.transactions s.ledger = .ok ledger ∧
    domainPass env order b.slotNumber b.index b.transactions
      ⟨creditFees b.transactions b.slotLeader ledger, .newIndexOverlay s.index,
        openCommits s.commitStore b.index⟩ = .ok st ∧
    staged.ledger = st.ledger ∧ staged.im = st.im ∧ staged.cs = st.cs
  stakes : stakePass env.E b.slotNumber b.transactions (openStakes s.stakes b.slotNumber) =
    .ok staged.stakes

/-- An accepted block: its transactions passed, and the passes staged it. -/
theorem validateBlock_eq_ok {env : Env} {order : JournalOrder} {s : ChainState}
    {newBlock oldBlock : Block} {slotLeaderKey : Bytes} {staged : Staged}
    (h : validateBlock env order s newBlock oldBlock slotLeaderKey = .ok staged) :
    checkHeader env.E newBlock oldBlock slotLeaderKey = .ok () ∧
      (∃ sh, (blockValidation env s newBlock).run newBlock.transactions = .ok sh) ∧
      Stages env order s newBlock staged := by
  unfold validateBlock at h
  obtain ⟨_, hHeader, h⟩ := bind_eq_ok.mp h
  obtain ⟨_, -, h⟩ := bind_eq_ok.mp h
  obtain ⟨sh, hRun, h⟩ := bind_eq_ok.mp h
  obtain ⟨ledger, hLedger, h⟩ := bind_eq_ok.mp h
  obtain ⟨_, -, h⟩ := bind_eq_ok.mp h
  obtain ⟨st, hDomain, h⟩ := bind_eq_ok.mp h
  obtain ⟨_, -, h⟩ := bind_eq_ok.mp h
  obtain ⟨_, -, h⟩ := bind_eq_ok.mp h
  obtain ⟨stakes, hStakes, h⟩ := bind_eq_ok.mp h
  obtain ⟨_, -, h⟩ := bind_eq_ok.mp h
  obtain ⟨_, -, h⟩ := bind_eq_ok.mp h
  obtain rfl := pure_eq_ok.mp h
  exact ⟨hHeader, ⟨sh, liftStop_eq_ok.mp hRun⟩,
    ⟨ledger, st, liftPanic_eq_ok.mp hLedger, liftPanic_eq_ok.mp hDomain, rfl, rfl, rfl⟩,
    liftPanic_eq_ok.mp hStakes⟩

/-- An accepted block meets the purge obligations of its slot. -/
theorem purgesMet_of_validateBlock {env : Env} {order : JournalOrder} {s : ChainState}
    {newBlock oldBlock : Block} {slotLeaderKey : Bytes} {staged : Staged}
    (h : validateBlock env order s newBlock oldBlock slotLeaderKey = .ok staged) :
    purgesMet (s.index.getPurgeableDomains newBlock.slotNumber) newBlock.transactions = true := by
  unfold validateBlock at h
  obtain ⟨_, -, h⟩ := bind_eq_ok.mp h
  obtain ⟨_, hPurges, -⟩ := bind_eq_ok.mp h
  exact check_eq_ok.mp hPurges

end Bdns.Blockchain
