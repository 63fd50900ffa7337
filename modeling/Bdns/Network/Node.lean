import Bdns.Blockchain.StandIn
import Bdns.Blockchain.Store
import Bdns.Blockchain.ValidateBlock

/-!
# Full nodes

The two ways in which a node changes its state: it adds a block that a peer sent
(`node_helper.go`), or it is the slot leader, builds a block on staging copies of its state
and promotes them (`node_leader.go`).
-/

namespace Bdns.Network

open Lib Blockchain Index

/-- `ValidateGenesisBlock`. -/
def validateGenesisBlock (env : Env) (block : Block) (slotLeaderKey : Bytes) : Prop :=
  block.index = 0 ∧ block.slotLeader = slotLeaderKey ∧
    block.verifyBlock env.E slotLeaderKey = true ∧
    block.stakeData.size = env.trustedRegistries.length ∧
    (∀ key ∈ env.trustedRegistries, (block.stakeData[hexEncode key]?).getD 0 = 0) ∧
    block.transactions.length = 0 ∧ block.hash = block.computeHash env.E

instance (env : Env) (block : Block) (slotLeaderKey : Bytes) :
    Decidable (validateGenesisBlock env block slotLeaderKey) := by
  unfold validateGenesisBlock
  infer_instance

def genesisBalance : UInt64 := 1000000

/-- The state of a node before its first block: the registries hold all coins. -/
def genesisState (env : Env) : ChainState where
  ledger := env.trustedRegistries.foldl
    (fun ledger regKey => ledger.seed (hexEncode regKey) genesisBalance) {}

/-- What the leader has built and not yet promoted. -/
structure Proposal where
  block : Block
  staged : Staged

structure Node where
  state : ChainState
  blockchain : Blockchain := {}
  /-- Set between the two halves of an iteration of the leader's loop. -/
  proposal : Option Proposal := none

/-! ## Installing a block -/

/-- The staged parts become the live ones. The two overlays are flushed into the live index
and commit store. -/
def install (env : Env) (range : List (Bytes × OverlayEntry) → List (Bytes × OverlayEntry))
    (staged : Staged) (s : ChainState) : ChainState where
  ledger := staged.ledger
  index := staged.im.commit env.E range s.index
  commitStore := staged.cs.commit s.commitStore
  stakes := staged.stakes

/-- The commit at the end of `ValidateBlock`, then the installation by `AddBlock`, which
commits the index overlay once more. -/
def installValidated (env : Env) (order : JournalOrder) (txs : List Transaction)
    (staged : Staged) (s : ChainState) : ChainState :=
  install env (order.run (txs.length + 1)) staged
    { s with index := staged.im.commit env.E (order.run txs.length) s.index }

/-- `AddBlock`, for the leader that the schedule names for the block's timestamp. -/
def Node.addBlock (env : Env) (order : JournalOrder) (slotLeader : Bytes) (block : Block)
    (n : Node) : Go Node :=
  if block.index = 0 then
    if validateGenesisBlock env block slotLeader then
      pure { n with blockchain := n.blockchain.addBlock block }
    else pure n
  else
    match n.blockchain.getLatestBlock with
    | none => throw .nilDereference
    | some latestBlock =>
      match validateBlock env order n.state block latestBlock slotLeader with
      | .error (.panic p) => throw p
      | .error (.reject _) => pure n
      | .ok staged =>
        pure { n with
          state := installValidated env order block.transactions staged n.state
          blockchain := n.blockchain.addBlock block }

/-! ## The leader -/

/-- The leader's own key and what it adds to a block. -/
structure Leader where
  publicKey : Bytes
  /-- The signature of a digest. -/
  sign : Bytes → Bytes
  /-- The time at which the block is sealed. -/
  now : Int64

/-- The last two steps of sealing: signature, then hash. -/
def Leader.seal (leader : Leader) (E : External) (block : Block) : Block :=
  let signed := { block with
    signature := leader.sign (E.sha256 (block.serializeForSigning E)) }
  { signed with hash := signed.computeHash E }

/-- `NewGenesisBlock`, with the randomness in the place of the previous hash. -/
def newGenesisBlock (env : Env) (leader : Leader) (randomness : Bytes) : Go Block :=
  if env.trustedRegistries.length = 0 then throw .logPanic
  else
    pure (leader.seal env.E
      { index := 0, timestamp := leader.now, slotNumber := 0, slotLeader := leader.publicKey
        stakeData := env.trustedRegistries.foldl
          (fun stakeData key => stakeData.insert (hexEncode key) 0) ∅
        transactions := [], prevHash := randomness
        stakeMapHash := ({} : StakeMap).hash env.E
        unstakeQueueHash := ({} : UnstakeQueue).hash env.E })

/-- The first registry adds the genesis block without validating it. -/
def Node.addGenesis (env : Env) (leader : Leader) (randomness : Bytes) (n : Node) : Go Node := do
  let genesisBlock ← newGenesisBlock env leader randomness
  pure { n with blockchain := n.blockchain.addBlock genesisBlock }

/-- `GenerateAutoRevocations`: one unsigned REVOKE for every domain to purge that no pending
transaction renews. -/
def generateAutoRevocations (im : IndexManager) (currentSlot : Int64)
    (pendingTxs : List Transaction) : List Transaction :=
  let filtered := (im.getPurgeableDomains currentSlot).filter fun tx =>
    !pendingTxs.any fun pending => pending.type = .renew && pending.domainName == tx.domainName
  (filtered.insertionSort fun a b => ¬ b.domainName < a.domainName).map fun tx =>
    { tid := tx.tid, type := .revoke, timestamp := 0, domainName := tx.domainName, cacheTTL := 0
      expirySlot := tx.expirySlot, redeemsTxID := tx.tid, ownerKey := [], signature := [] }

/-- The staging copies of a leader that extends `latestBlock`. -/
def stageBlock (env : Env) (order : JournalOrder) (leader : Leader) (s : ChainState)
    (latestBlock : Block) (slot : Int64) (txs : List Transaction) : Go Staged := do
  let (ledger, stakes) ← leaderPass env.E slot txs (s.ledger, openStakes s.stakes slot)
  let nextBlockIndex := latestBlock.index + 1
  let st ← domainPass env order slot nextBlockIndex txs
    ⟨creditFees txs leader.publicKey ledger, .newIndexOverlay s.index,
      openCommits s.commitStore nextBlockIndex⟩
  pure ⟨st.ledger, st.im, st.cs, stakes⟩

/-- `NewBlock` as the leader calls it: all hashes are taken from the final staging copies. -/
def newBlock (env : Env) (leader : Leader) (latestBlock : Block) (slot : Int64)
    (txs : List Transaction) (staged : Staged) : Go Block := do
  let root ← setupMerkleTree env.E txs
  pure (leader.seal env.E
    { index := latestBlock.index + 1, timestamp := leader.now, slotNumber := slot
      slotLeader := leader.publicKey, indexHash := staged.im.getIndexHash env.E
      balanceLedgerHash := staged.ledger.hash env.E, commitStoreHash := staged.cs.hash env.E
      transactions := txs, prevHash := latestBlock.hash, merkleRootHash := root
      stakeMapHash := staged.stakes.stakeMap.hash env.E
      unstakeQueueHash := staged.stakes.unstakeQueue.hash env.E
      stakeData := staged.stakes.stakeMap.getAll })

/-- The building half of `CreateBlockIfLeader` in a slot of the node's own, up to the sealed
block; `chosen` is taken from the pool. -/
def Node.build (env : Env) (order : JournalOrder) (leader : Leader) (slot : Int64)
    (chosen : List Transaction) (n : Node) : Go Node :=
  match n.blockchain.getLatestBlock with
  | none => throw .nilDereference
  | some latestBlock =>
    let txs := generateAutoRevocations n.state.index slot chosen ++ chosen
    if txs.length = 0 then pure n
    else if slot ≤ latestBlock.slotNumber then pure n
    else do
      let staged ← stageBlock env order leader n.state latestBlock slot txs
      let block ← newBlock env leader latestBlock slot txs staged
      pure { n with proposal := some ⟨block, staged⟩ }

/-- The promoting half. -/
def Node.promote (env : Env) (order : JournalOrder) (n : Node) : Node :=
  match n.proposal with
  | none => n
  | some proposal =>
    { state := install env (order.run proposal.block.transactions.length) proposal.staged n.state
      blockchain := n.blockchain.addBlock proposal.block
      proposal := none }

/-! ## Nodes over the stand-in -/

namespace StandIn

def leader (publicKey : Bytes) (now : Int64) : Leader :=
  ⟨publicKey, Blockchain.StandIn.sign publicKey, now⟩

/-- A node with a genesis block sealed by `publicKey`. -/
def genesis (env : Env) (publicKey : Bytes) : Node :=
  okOr (Node.addGenesis env (leader publicKey 0) [] { state := genesisState env })
    { state := genesisState env }

/-- The block that a node builds as the leader of a slot. -/
def sealed (env : Env) (leader : Leader) (slot : Int64) (chosen : List Transaction) (n : Node) :
    Block :=
  (((n.build env (.ascending _ _) leader slot chosen).toOption.bind (·.proposal)).map
    (·.block)).getD
      { index := 0, slotNumber := 0, slotLeader := [], transactions := [], prevHash := [] }

/-- A node after a block from a peer. -/
def receive (env : Env) (slotLeader : Bytes) (block : Block) (n : Node) : Node :=
  okOr (n.addBlock env (.ascending _ _) slotLeader block) n

end StandIn

end Bdns.Network
