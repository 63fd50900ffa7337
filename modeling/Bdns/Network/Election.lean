import Bdns.Consensus.Drg
import Bdns.Consensus.Pos
import Bdns.Network.Node

/-!
# Slot leaders

`GetSlotLeader` and what asks for it: received blocks, slot-skip attestations, the node's own
slots. The leader of an epoch is computed at the first question, from the stakes, the reveals of
the epoch before and the latest block as they are then, and is never computed again.
-/

namespace Bdns.Network

open Lib Blockchain Index Consensus

/-- The registry keys, the clock of the network and the code outside the repository. -/
structure NetEnv extends DrgEnv where
  registryKeys : List Bytes
  initialTimestamp : Int64
  slotInterval : Int64
  slotsPerEpoch : Int64

/-- The environment in which blocks are validated. -/
def NetEnv.env (net : NetEnv) : Env :=
  ⟨net.E, net.registryKeys, 86400 / net.slotInterval⟩

/-- The epoch of a timestamp, as `AddBlock` computes it. -/
def NetEnv.timestampEpoch (net : NetEnv) (timestamp : Int64) : Go Int64 :=
  if net.slotInterval * net.slotsPerEpoch = 0 then throw .divideByZero
  else pure ((timestamp - net.initialTimestamp) / (net.slotInterval * net.slotsPerEpoch))

/-- The epoch of a slot. -/
def NetEnv.slotEpoch (net : NetEnv) (slot : Int64) : Go Int64 :=
  if net.slotsPerEpoch = 0 then throw .divideByZero else pure (slot / net.slotsPerEpoch)

/-- A node with what the gossip handlers keep. -/
structure Peer where
  node : Node
  drg : DrgState := {}
  slotLeaders : Int64 → Option Bytes := fun _ => none
  currentSlot : Int64 := 0

/-- A node that has just been started. -/
def Peer.init (net : NetEnv) : Peer where
  node := { state := genesisState net.env }

/-! ## The election -/

/-- The leader of an epoch, computed from the present state. -/
def Peer.electLeader (net : NetEnv) (p : Peer) (epoch : Int64) : Go Bytes := do
  let drgEpoch := epoch - 1
  let epochReveals := if 0 ≤ drgEpoch then p.drg.epochRandoms drgEpoch else ∅
  let latestBlock := p.node.blockchain.getLatestBlock
  let (leaderHex, _) ← getSlotLeaderUtil Float net.registryKeys
    p.node.state.stakes.stakeMap.getAll epochReveals ((latestBlock.map (·.hash)).getD [])
    ((latestBlock.map (·.slotNumber)).getD 0)
  pure ((net.registryKeys.find? fun key => hexEncode key == leaderHex).getD
    (net.registryKeys.headD []))

/-- `GetSlotLeader`. -/
def Peer.getSlotLeader (net : NetEnv) (epoch : Int64) (p : Peer) : Go (Bytes × Peer) :=
  match p.slotLeaders epoch with
  | some slotLeader => pure (slotLeader, p)
  | none => do
    let leader ← p.electLeader net epoch
    pure (leader, { p with slotLeaders := Function.update p.slotLeaders epoch (some leader) })

/-- The answer of `GetSlotLeader`. -/
def Peer.leaderOf (net : NetEnv) (epoch : Int64) (p : Peer) : Go Bytes :=
  (p.getSlotLeader net epoch).map (·.1)

/-! ## The events that ask for a leader -/

/-- `AddBlock`. -/
def Peer.addBlock (net : NetEnv) (order : JournalOrder) (block : Block) (p : Peer) : Go Peer := do
  let epoch ← net.timestampEpoch block.timestamp
  let (slotLeader, p) ← p.getSlotLeader net epoch
  let node ← p.node.addBlock net.env order slotLeader block
  pure { p with node }

/-- A slot of the loop in `CreateBlockIfLeader`. -/
def Peer.tick (net : NetEnv) (order : JournalOrder) (leader : Leader) (slot : Int64)
    (chosen : List Transaction) (p : Peer) : Go Peer := do
  let epoch ← net.slotEpoch slot
  let (currSlotLeader, p) ← p.getSlotLeader net epoch
  if currSlotLeader ≠ leader.publicKey then pure p
  else do
    let node ← p.node.build net.env order leader slot chosen
    pure { p with node := node.promote net.env order }

structure SlotSkipAttestation where
  slot : Int64
  leaderKey : Bytes
  signature : Bytes

/-- `handleSlotSkip`. -/
def Peer.handleSlotSkip (net : NetEnv) (skip : SlotSkipAttestation) (p : Peer) : Go Peer := do
  let epoch ← net.slotEpoch skip.slot
  let (expectedLeader, p) ← p.getSlotLeader net epoch
  if skip.leaderKey ≠ expectedLeader then pure p
  else
    let payload := utf8 "slot-skip:" ++ intToByteArr skip.slot ++ skip.leaderKey
    if net.verifies skip.leaderKey payload skip.signature = true ∧ p.currentSlot < skip.slot then
      pure { p with currentSlot := skip.slot }
    else pure p

inductive Event
  | block (order : JournalOrder) (block : Block)
  | drg (message : DrgMessage)
  | tick (order : JournalOrder) (leader : Leader) (slot : Int64) (chosen : List Transaction)
  | slotSkip (skip : SlotSkipAttestation)

/-- One event at a node. The error of a DRG handler is logged. -/
def Peer.step (net : NetEnv) : Event → Peer → Go Peer
  | .block order block, p => p.addBlock net order block
  | .drg message, p => do
    let (drg, _) ← handleDrg net.toDrgEnv message p.drg
    pure { p with drg }
  | .tick order leader slot chosen, p => p.tick net order leader slot chosen
  | .slotSkip skip, p => p.handleSlotSkip net skip

/-! ## Accepted blocks -/

/-- Whether the checks of `AddBlock` let a block through. -/
def Node.admits (env : Env) (order : JournalOrder) (slotLeader : Bytes) (block : Block)
    (n : Node) : Bool :=
  if block.index = 0 then decide (validateGenesisBlock env block slotLeader)
  else
    match n.blockchain.getLatestBlock with
    | none => false
    | some latestBlock => (validateBlock env order n.state block latestBlock slotLeader).isOk

/-- The same at a node that computes the leader itself. -/
def Peer.admits (net : NetEnv) (order : JournalOrder) (block : Block) (p : Peer) : Bool :=
  match net.timestampEpoch block.timestamp >>= fun epoch => p.leaderOf net epoch with
  | .error _ => false
  | .ok slotLeader => p.node.admits net.env order slotLeader block

section Answers

variable {net : NetEnv} {p p₁ : Peer} {epoch : Int64} {leader : Bytes}

theorem Peer.leaderOf_of_some (h : p.slotLeaders epoch = some leader) :
    p.leaderOf net epoch = .ok leader := by
  unfold leaderOf getSlotLeader
  rw [h]
  rfl

theorem Peer.leaderOf_of_none (h : p.slotLeaders epoch = none) :
    p.leaderOf net epoch = p.electLeader net epoch := by
  unfold leaderOf getSlotLeader
  rw [h]
  dsimp only
  cases p.electLeader net epoch <;> rfl

/-- A question changes the memory of the epoch it asks for, and nothing else. -/
theorem Peer.getSlotLeader_eq_ok :
    p.getSlotLeader net epoch = .ok (leader, p₁) ↔ p.leaderOf net epoch = .ok leader ∧
      p₁ = { p with slotLeaders := Function.update p.slotLeaders epoch (some leader) } := by
  unfold leaderOf getSlotLeader
  cases hMemo : p.slotLeaders epoch with
  | some slotLeader =>
    constructor
    · intro h
      obtain ⟨rfl, rfl⟩ := Prod.mk.inj (pure_eq_ok.mp h)
      exact ⟨rfl, by rw [← hMemo, Function.update_eq_self]⟩
    · rintro ⟨h, rfl⟩
      obtain rfl : slotLeader = leader := Except.ok.inj h
      rw [← hMemo, Function.update_eq_self, hMemo]
      rfl
  | none =>
    cases hElect : p.electLeader net epoch with
    | error e =>
      constructor
      · exact fun h => nomatch h
      · exact fun h => nomatch h.1
    | ok elected =>
      constructor
      · intro h
        obtain ⟨rfl, rfl⟩ := Prod.mk.inj (Except.ok.inj h)
        exact ⟨rfl, rfl⟩
      · rintro ⟨h, rfl⟩
        obtain rfl : elected = leader := Except.ok.inj h
        rfl

end Answers

/-! ## The genesis block -/

/-- The stakes of a genesis block. -/
def zeroStakes (keys : List Bytes) : Std.ExtTreeMap Bytes UInt64 compare :=
  keys.foldl (fun stakeData key => stakeData.insert (hexEncode key) 0) ∅

theorem zeroStakes_append (keys : List Bytes) (key : Bytes) :
    zeroStakes (keys ++ [key]) = (zeroStakes keys).insert (hexEncode key) 0 := by
  simp [zeroStakes]

theorem getElem?_zeroStakes (keys : List Bytes) (key : Bytes) :
    (zeroStakes keys)[hexEncode key]? = if key ∈ keys then some 0 else none := by
  induction keys using List.reverseRecOn with
  | nil => simp [zeroStakes]
  | append_singleton keys last ih =>
    rw [zeroStakes_append, getElem?_insert_eq_ite, ih]
    by_cases hLast : key = last
    · simp [hLast]
    · simp [hLast, Ne.symm hLast]

theorem size_zeroStakes (keys : List Bytes) :
    (zeroStakes keys).size = keys.toFinset.card := by
  induction keys using List.reverseRecOn with
  | nil => simp [zeroStakes]
  | append_singleton keys last ih =>
    rw [zeroStakes_append, Std.ExtTreeMap.size_insert, ih]
    have hContains : (zeroStakes keys).contains (hexEncode last) = true ↔ last ∈ keys := by
      rw [← Std.ExtTreeMap.isSome_getElem?_eq_contains, getElem?_zeroStakes]
      by_cases hMem : last ∈ keys <;> simp [hMem]
    by_cases hMem : last ∈ keys
    · rw [if_pos (hContains.mpr hMem)]
      congr 1
      ext key
      simpa using fun h => h ▸ hMem
    · rw [if_neg (mt hContains.mp hMem)]
      simp [hMem]

theorem size_zeroStakes_eq_length {keys : List Bytes} :
    (zeroStakes keys).size = keys.length ↔ keys.Nodup := by
  rw [size_zeroStakes]
  exact Multiset.toFinset_card_eq_card_iff_nodup (m := (keys : Multiset Bytes))

/-- A registry key is found again by its hexadecimal text. -/
theorem find?_hexEncode {keys : List Bytes} {key : Bytes} (hMem : key ∈ keys) :
    (keys.find? fun k => hexEncode k == hexEncode key) = some key := by
  cases hFind : keys.find? fun k => hexEncode k == hexEncode key with
  | none => exact absurd (List.find?_eq_none.mp hFind key hMem) (by simp)
  | some found =>
    obtain rfl : found = key := by simpa using List.find?_some hFind
    rfl

/-- The leader's signatures of digests are valid under its key. -/
def Leader.Signs (leader : Leader) (E : External) : Prop :=
  ∀ digest, digest.length = 32 → E.verify leader.publicKey digest (leader.sign digest) = true

section Genesis

variable {net : NetEnv} {order : JournalOrder} {leader : Leader} {randomness first : Bytes}
  {rest : List Bytes} {genesis : Block} {p : Peer}

/-- The leader that a node without blocks and stakes computes for epoch 0. -/
theorem electLeader_of_pkix (hRegistry : net.registryKeys = first :: rest)
    (hKeys : ∀ key ∈ net.registryKeys, pkixPrefix <+: key)
    (hChain : p.node.blockchain.getLatestBlock = none)
    (hStakes : p.node.state.stakes.stakeMap.getAll = ∅) :
    ∃ elected, p.electLeader net 0 = .ok elected ∧
      if Even net.registryKeys.length ∨ net.registryKeys.length ≤ 5 then elected = first
      else elected ∈ rest := by
  rw [hRegistry] at hKeys ⊢
  obtain ⟨elected, seed, hUtil, hElected⟩ := getSlotLeaderUtil_of_pkix hKeys []
  refine ⟨elected, ?_, hElected⟩
  have hMem : elected ∈ first :: rest := by
    split at hElected
    · exact hElected ▸ List.mem_cons_self
    · exact List.mem_cons_of_mem _ hElected
  have hEpoch : ¬ (0 : Int64) ≤ 0 - 1 := by decide
  simp only [Peer.electLeader, if_neg hEpoch, hStakes, hChain, hRegistry, Option.map_none,
    Option.getD_none, hUtil]
  change Except.ok (((first :: rest).find? fun key => hexEncode key == hexEncode elected).getD _) = _
  rw [find?_hexEncode hMem]
  rfl

theorem index_newGenesisBlock (hGenesis : newGenesisBlock net.env leader randomness = .ok genesis) :
    genesis.index = 0 := by
  obtain ⟨-, hGenesis⟩ := ite_throw_eq_ok.mp hGenesis
  obtain rfl := pure_eq_ok.mp hGenesis
  rfl

/-- The genesis block that the first registry seals passes the checks for its own key if no key
is listed twice. -/
theorem validateGenesisBlock_iff
    (hSigns : leader.Signs net.E)
    (hGenesis : newGenesisBlock net.env leader randomness = .ok genesis) (slotLeader : Bytes) :
    validateGenesisBlock net.env genesis slotLeader ↔
      slotLeader = leader.publicKey ∧ net.registryKeys.Nodup := by
  unfold newGenesisBlock at hGenesis
  obtain ⟨-, hGenesis⟩ := ite_throw_eq_ok.mp hGenesis
  obtain rfl := pure_eq_ok.mp hGenesis
  unfold validateGenesisBlock
  constructor
  · rintro ⟨-, hLeader, -, hSize, -⟩
    exact ⟨hLeader.symm, size_zeroStakes_eq_length.mp hSize⟩
  · rintro ⟨rfl, hNodup⟩
    refine ⟨rfl, rfl, hSigns _ (net.E.sha256_length _),
      size_zeroStakes_eq_length.mpr hNodup, ?_, rfl, rfl⟩
    intro key hKey
    change ((zeroStakes net.registryKeys)[hexEncode key]?).getD 0 = 0
    rw [getElem?_zeroStakes]
    split <;> rfl

/-- The genesis block of the first registry at a node that has no block yet: `AddBlock` makes it
the tip exactly if no key is listed twice and the number of keys is even or at most five. -/
theorem genesis_agreement_iff (hRegistry : net.registryKeys = first :: rest)
    (hKeys : ∀ key ∈ net.registryKeys, pkixPrefix <+: key)
    (hFirst : leader.publicKey = first)
    (hSigns : leader.Signs net.E)
    (hGenesis : newGenesisBlock net.env leader randomness = .ok genesis)
    (hEpoch : net.timestampEpoch genesis.timestamp = .ok 0)
    (hChain : p.node.blockchain = {}) (hStakes : p.node.state.stakes.stakeMap.getAll = ∅)
    (hMemo : p.slotLeaders 0 = none) :
    ∃ p', p.addBlock net order genesis = .ok p' ∧
      (p'.node.blockchain.getLatestBlock = some genesis ↔
        net.registryKeys.Nodup ∧
          (Even net.registryKeys.length ∨ net.registryKeys.length ≤ 5)) := by
  obtain ⟨elected, hElect, hElected⟩ :=
    electLeader_of_pkix hRegistry hKeys (by rw [hChain]; rfl) hStakes
  have hValid := validateGenesisBlock_iff hSigns hGenesis elected
  have hAgree : validateGenesisBlock net.env genesis elected ↔ net.registryKeys.Nodup ∧
      (Even net.registryKeys.length ∨ net.registryKeys.length ≤ 5) := by
    rw [hValid, hFirst, and_comm]
    refine and_congr_right fun hNodup => ?_
    split at hElected
    · rename_i hCount
      exact iff_of_true hElected hCount
    · rename_i hCount
      refine iff_of_false ?_ hCount
      rintro rfl
      rw [hRegistry, List.nodup_cons] at hNodup
      exact hNodup.1 hElected
  have hAnswer := Peer.getSlotLeader_eq_ok.mpr
    ⟨(Peer.leaderOf_of_none hMemo).trans hElect, rfl⟩
  have hIndex := index_newGenesisBlock hGenesis
  rw [← hAgree]
  unfold Peer.addBlock
  rw [hEpoch]
  change ∃ p', (p.getSlotLeader net 0 >>= _) = _ ∧ _
  rw [hAnswer]
  change ∃ p', (p.node.addBlock net.env order elected genesis >>= _) = _ ∧ _
  unfold Node.addBlock
  rw [if_pos hIndex]
  by_cases hPass : validateGenesisBlock net.env genesis elected
  · rw [if_pos hPass]
    refine ⟨_, rfl, iff_of_true ?_ hPass⟩
    change (p.node.blockchain.addBlock genesis).getLatestBlock = _
    rw [hChain]
    exact Blockchain.getLatestBlock_addBlock_of_none rfl rfl
  · rw [if_neg hPass]
    refine ⟨_, rfl, iff_of_false ?_ hPass⟩
    change p.node.blockchain.getLatestBlock ≠ _
    rw [hChain]
    exact nofun

end Genesis

namespace StandIn

theorem signs_leader (publicKey : Bytes) (now : Int64) (ungobBlock : Bytes → Option Block) :
    (leader publicKey now).Signs (.standIn ungobBlock) := by
  intro digest hLength
  simp [leader, External.verify, External.standIn, Blockchain.StandIn.sign, hLength,
    Blockchain.StandIn.digest]

/-- A network of `n` registries with encoded keys, one second for a slot and ten slots for an
epoch. -/
def pkixNet (n : Nat) : NetEnv where
  E := .standIn fun _ => none
  verifyASN1 := fun key digest signature => signature == Blockchain.StandIn.sign key digest
  registryKeys := (List.range n).map fun i => pkixPrefix ++ [UInt8.ofNat i]
  initialTimestamp := 0
  slotInterval := 1
  slotsPerEpoch := 10

/-- The genesis block of the first of them. -/
def pkixGenesis (n : Nat) : Block :=
  okOr (newGenesisBlock (pkixNet n).env (leader (pkixPrefix ++ [0]) 3) [])
    { index := 0, slotNumber := 0, slotLeader := [], transactions := [], prevHash := [] }

end StandIn

/-- Two registries agree on the genesis block. -/
theorem genesis_agreement_iff_two :
    ∃ p', (Peer.init (StandIn.pkixNet 2)).addBlock (StandIn.pkixNet 2) (.ascending _ _)
        (StandIn.pkixGenesis 2) = .ok p' ∧
      p'.node.blockchain.getLatestBlock = some (StandIn.pkixGenesis 2) := by
  have hGenesis : newGenesisBlock (StandIn.pkixNet 2).env (StandIn.leader (pkixPrefix ++ [0]) 3) [] =
      .ok (StandIn.pkixGenesis 2) := eq_ok_okOr (by decide +kernel) _
  obtain ⟨p', hAdd, hIff⟩ :
      ∃ p', (Peer.init (StandIn.pkixNet 2)).addBlock (StandIn.pkixNet 2) (.ascending _ _)
          (StandIn.pkixGenesis 2) = .ok p' ∧
        (p'.node.blockchain.getLatestBlock = some (StandIn.pkixGenesis 2) ↔ _) :=
    genesis_agreement_iff rfl (by decide +kernel) rfl (StandIn.signs_leader _ _ _) hGenesis
      (by decide +kernel) rfl (by decide +kernel) rfl
  exact ⟨p', hAdd, hIff.mpr ⟨by decide +kernel, .inl (by decide +kernel)⟩⟩

/-- With seven registries the leader that a receiver computes is not the first one, and the
genesis block is refused. -/
theorem seventh_registry_splits_genesis :
    ∃ p', (Peer.init (StandIn.pkixNet 7)).addBlock (StandIn.pkixNet 7) (.ascending _ _)
        (StandIn.pkixGenesis 7) = .ok p' ∧
      p'.slotLeaders 0 = some (pkixPrefix ++ [1]) ∧
      p'.node.blockchain.getLatestBlock = none := by
  obtain ⟨p', hAdd, hState⟩ := exists_of_any
    (p := fun p' => p'.slotLeaders 0 == some (pkixPrefix ++ [1]) &&
      p'.node.blockchain.getLatestBlock.isNone)
    (by decide +kernel : ((Peer.init (StandIn.pkixNet 7)).addBlock (StandIn.pkixNet 7)
      (.ascending _ _) (StandIn.pkixGenesis 7)).toOption.any _ = true)
  simp only [Bool.and_eq_true, beq_iff_eq, Option.isNone_iff_eq_none] at hState
  exact ⟨p', hAdd, hState⟩

/-! ## The leader of an accepted block -/

section Accepted

variable {net : NetEnv} {order : JournalOrder} {p : Peer} {block : Block} {t e : Int64}
  {leader : Bytes}

/-- An accepted block names the leader that the node computes for its timestamp. -/
theorem Peer.leaderOf_of_admits (hIndex : block.index ≠ 0)
    (hAdmits : p.admits net order block = true)
    (hTime : net.timestampEpoch block.timestamp = .ok t) :
    p.leaderOf net t = .ok block.slotLeader := by
  unfold admits at hAdmits
  rw [hTime] at hAdmits
  change (match p.leaderOf net t with | .error _ => false | .ok slotLeader => _) = true at hAdmits
  split at hAdmits
  · exact absurd hAdmits (by decide)
  · rename_i slotLeader hLeader
    unfold Node.admits at hAdmits
    rw [if_neg hIndex] at hAdmits
    split at hAdmits
    · exact absurd hAdmits (by decide)
    · obtain ⟨staged, hStaged⟩ := exists_eq_ok hAdmits
      obtain ⟨-, -, -, hSlotLeader, -⟩ := checkHeader_eq_ok (validateBlock_eq_ok hStaged).1
      rw [hLeader, hSlotLeader]

end Accepted

namespace StandIn

/-- The commitment and the reveal of the second registry for epoch 0, with a value that selects
the last key. -/
def lastKeyMessages : List DrgMessage :=
  let key := pkixPrefix ++ [1]
  let u := List.replicate 32 0xff
  let r := List.replicate 32 0
  let sv := commitmentPhase (pkixNet 2).E key u r
  let commitment : CommitmentMsg := ⟨0, some sv.commitment, hexEncode key, []⟩
  let reveal : RevealMsg := ⟨0, some u, r, hexEncode key, []⟩
  let sign := fun payload => Blockchain.StandIn.sign key ((pkixNet 2).E.sha256 payload)
  [.commitment { commitment with signature := sign commitment.payload },
    .reveal { reveal with signature := sign reveal.payload }]

/-- A node after a list of events. -/
def afterEvents (net : NetEnv) (events : List Event) : Peer :=
  okOr (events.foldlM (fun p event => p.step net event) (.init net)) (.init net)

/-- The genesis block, then the two messages. -/
def twoEpochEvents : List Event :=
  .block (.ascending _ _) (pkixGenesis 2) :: lastKeyMessages.map .drg

/-- A block of the second registry at a time of epoch 1, with the given slot. -/
def lateBlock (slot : Int64) : Block :=
  sealed (pkixNet 2).env (leader (pkixPrefix ++ [1]) 15) slot
    [Blockchain.StandIn.signAs (pkixPrefix ++ [1])
      { tid := 1, type := .commit, ownerKey := pkixPrefix ++ [1], fee := 1
        commitHash := Blockchain.StandIn.digest [1] }]
    (afterEvents (pkixNet 2) twoEpochEvents).node

end StandIn

end Bdns.Network
