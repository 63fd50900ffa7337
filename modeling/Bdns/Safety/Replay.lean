import Bdns.Network.Leader

/-!
# The state of a node is a replay of its chain

A node changes its state when it promotes a block of its own and when it accepts one of a peer,
and it changes its store of blocks in a separate step. The two stay together as long as no peer
block is accepted between the building and the promotion of a block of the node's own.
-/

namespace Bdns.Safety

open Lib Blockchain Network Index

/-! ## Replays -/

/-- The state after the blocks of a chain, applied in order. The journal of the index is flushed
once by the leader of a block and twice by a validator. -/
inductive Replays (env : Env) : List Block → ChainState → Prop
  | genesis (block : Block) : Replays env [block] (genesisState env)
  | led {blocks : List Block} {s : ChainState} {b : Block} {order : JournalOrder}
      {staged : Staged} (before : Replays env blocks s) (stages : Stages env order s b staged)
      (range : List (Bytes × OverlayEntry) → List (Bytes × OverlayEntry))
      (perm : ∀ xs, (range xs).Perm xs) :
      Replays env (blocks ++ [b]) (install env range staged s)
  | validated {blocks : List Block} {s : ChainState} {b : Block} {order : JournalOrder}
      {staged : Staged} (before : Replays env blocks s) (stages : Stages env order s b staged) :
      Replays env (blocks ++ [b]) (installValidated env order b.transactions staged s)

/-! ## Runs of a node -/

/-- The steps of a node: the first registry's genesis block, the two halves of the leader's
loop, and a block from a peer. -/
inductive NodeStep
  | addGenesis (leader : Leader) (randomness : Bytes)
  | build (order : JournalOrder) (leader : Leader) (slot : Int64) (chosen : List Transaction)
  | promote (order : JournalOrder)
  | receive (order : JournalOrder) (slotLeader : Bytes) (block : Block)

def NodeStep.run (env : Env) (n : Node) : NodeStep → Go Node
  | .addGenesis leader randomness => n.addGenesis env leader randomness
  | .build order leader slot chosen => n.build env order leader slot chosen
  | .promote order => pure (n.promote env order)
  | .receive order slotLeader block => n.addBlock env order slotLeader block

/-- The leader's loop is sequential, and no peer block is accepted within it. -/
def NodeStep.Undisturbed (env : Env) (n : Node) : NodeStep → Prop
  | .build .. => n.proposal = none
  | .receive order slotLeader block => block.index = 0 ∨ n.proposal = none ∨
      n.addBlock env order slotLeader block = .ok n
  | _ => True

/-- The header of the block that a step hands to the store. -/
def NodeStep.Hashes (env : Env) (n : Node) (headers : Set Bytes) : NodeStep → Prop
  | .addGenesis leader randomness =>
      ∀ b, newGenesisBlock env leader randomness = .ok b → b.hashData ∈ headers
  | .build .. => True
  | .promote _ => ∀ p ∈ n.proposal, p.block.hashData ∈ headers
  | .receive _ _ block => block.hashData ∈ headers

/-- The nodes after a number of undisturbed steps; `headers` holds what was hashed on the way. -/
inductive UndisturbedRun (env : Env) (headers : Set Bytes) : Nat → Node → Prop
  | start : UndisturbedRun env headers 0 { state := genesisState env }
  | step {k : Nat} {n n' : Node} {step : NodeStep} (before : UndisturbedRun env headers k n)
      (undisturbed : step.Undisturbed env n) (hashes : step.Hashes env n headers)
      (run : step.run env n = .ok n') : UndisturbedRun env headers (k + 1) n'

/-! ## What a run keeps -/

/-- A node whose state is the replay of the chain to its tip, and whose proposal extends it. -/
structure Follows (env : Env) (headers : Set Bytes) (k : Nat) (n : Node) (tip : Bytes)
    (latest : Block) (blocks : List Block) : Prop where
  atTip : n.blockchain.tip = some tip
  stored : n.blockchain.blocks tip = some latest
  chain : n.blockchain.ChainTo tip blocks
  replays : Replays env blocks n.state
  index : latest.index.toInt + 1 = blocks.length
  length : blocks.length ≤ k
  known : ∀ h b, n.blockchain.blocks h = some b → b.hash = h ∧ b.hash = b.computeHash env.E ∧
    b.hashData ∈ headers ∧ (b.index = 0 ∨ b.slotNumber ≤ latest.slotNumber)
  proposed : ∀ p ∈ n.proposal, p.block.prevHash = latest.hash ∧
    p.block.index = latest.index + 1 ∧ latest.slotNumber < p.block.slotNumber ∧
    p.block.hash = p.block.computeHash env.E ∧ ∃ order, Stages env order n.state p.block p.staged

/-- Index and slot number stand at fixed places of what is hashed. -/
theorem index_slot_of_hashData_eq {b b' : Block} (h : b.hashData = b'.hashData) :
    b.index = b'.index ∧ b.slotNumber = b'.slotNumber := by
  simp only [Block.hashData, List.append_assoc] at h
  obtain ⟨hIndex, h⟩ := List.append_inj h (by simp)
  obtain ⟨-, h⟩ := List.append_inj h (by simp)
  obtain ⟨hSlot, -⟩ := List.append_inj h (by simp)
  exact ⟨intToByteArr_injective hIndex, intToByteArr_injective hSlot⟩

section Steps

variable {env : Env} {headers : Set Bytes} {k : Nat} {n : Node} {tip : Bytes} {latest : Block}
  {blocks : List Block}

theorem Follows.mono (h : Follows env headers k n tip latest blocks) :
    Follows env headers (k + 1) n tip latest blocks :=
  { h with length := Nat.le_succ_of_le h.length }

theorem Follows.toInt_succ (h : Follows env headers k n tip latest blocks) :
    (latest.index + 1).toInt ≠ 0 := by
  have hIndex := h.index
  have hLength := h.length
  rw [Int64.toInt_add]
  have hOne : (1 : Int64).toInt = 1 := rfl
  rw [hOne, Int.bmod_def]
  have hLt := latest.index.toInt_lt
  have hPos : 0 < blocks.length := by
    cases h.chain <;> simp
  split <;> omega

/-- A block of the chain's next index and a later slot has a hash of its own. -/
theorem Follows.fresh (h : Follows env headers k n tip latest blocks)
    (hInj : Set.InjOn env.E.sha256 headers) {b : Block}
    (hHash : b.hash = b.computeHash env.E) (hHeader : b.hashData ∈ headers)
    (hIndex : b.index = latest.index + 1) (hSlot : latest.slotNumber < b.slotNumber) :
    n.blockchain.blocks b.hash = none := by
  by_contra hSome
  obtain ⟨b', hb'⟩ := Option.ne_none_iff_exists'.mp hSome
  obtain ⟨hSame, hHash', hHeader', hOld⟩ := h.known _ _ hb'
  have hData : b'.hashData = b.hashData :=
    hInj hHeader' hHeader (hHash'.symm.trans (hSame.trans hHash))
  obtain ⟨hIndex', hSlot'⟩ := index_slot_of_hashData_eq hData
  rcases hOld with hZero | hLe
  · refine h.toInt_succ ?_
    rw [← hIndex, ← hIndex', hZero]
    rfl
  · rw [hSlot'] at hLe
    exact absurd hSlot (Int64.not_lt.mpr hLe)

/-- A block that extends the tip is stored and becomes the tip, with the state after it. -/
theorem Follows.extend (h : Follows env headers k n tip latest blocks)
    (hInj : Set.InjOn env.E.sha256 headers) (hk : k + 1 < 2 ^ 63) {b : Block} {s : ChainState}
    (hPrev : b.prevHash = latest.hash) (hIndex : b.index = latest.index + 1)
    (hSlot : latest.slotNumber < b.slotNumber) (hHash : b.hash = b.computeHash env.E)
    (hHeader : b.hashData ∈ headers) (hReplays : Replays env (blocks ++ [b]) s) :
    Follows env headers (k + 1) ⟨s, n.blockchain.addBlock b, none⟩ b.hash b (blocks ++ [b]) := by
  have hFresh := h.fresh hInj hHash hHeader hIndex hSlot
  have hLater : b.index ≠ 0 := by
    intro hZero
    refine h.toInt_succ ?_
    rw [← hIndex, hZero]
    rfl
  have hTip : latest.hash = tip := (h.known _ _ h.stored).1
  refine ⟨?_, ?_, ?_, hReplays, ?_, ?_, ?_, fun p hp => absurd hp (by simp)⟩
  · exact Blockchain.tip_addBlock_of_extends hFresh h.atTip h.stored hPrev hIndex
  · exact Blockchain.blocks_addBlock_self hFresh
  · refine .step (Blockchain.blocks_addBlock_self hFresh) hLater ?_
    rw [hPrev, hTip]
    exact h.chain.addBlock
  · have hOld := h.index
    have hLength := h.length
    rw [hIndex, Int64.toInt_add, List.length_append, List.length_singleton]
    have hOne : (1 : Int64).toInt = 1 := rfl
    rw [hOne, Int.bmod_eq_of_le (by omega) (by omega)]
    omega
  · rw [List.length_append, List.length_singleton]
    exact Nat.succ_le_succ h.length
  · intro key b' hb'
    rcases Blockchain.blocks_addBlock_eq_some hb' with hOld | ⟨rfl, rfl⟩
    · obtain ⟨hKey, hComputed, hMem, hBefore⟩ := h.known key b' hOld
      refine ⟨hKey, hComputed, hMem, hBefore.imp id fun hLe => ?_⟩
      exact Int64.le_trans hLe (Int64.le_of_lt hSlot)
    · exact ⟨rfl, hHash, hHeader, .inr (Int64.le_refl _)⟩

/-- A further genesis block is stored and changes nothing else. -/
theorem Follows.addGenesis (h : Follows env headers k n tip latest blocks)
    {b : Block} (hIndex : b.index = 0) (hHash : b.hash = b.computeHash env.E)
    (hHeader : b.hashData ∈ headers) :
    Follows env headers (k + 1) { n with blockchain := n.blockchain.addBlock b } tip latest
      blocks := by
  refine ⟨?_, Blockchain.blocks_addBlock_of_some h.stored, h.chain.addBlock, h.replays, h.index,
    Nat.le_succ_of_le h.length, ?_, h.proposed⟩
  · refine Blockchain.tip_addBlock_of_not_extends h.atTip h.stored fun hExtends => ?_
    refine h.toInt_succ ?_
    rw [← hExtends.2, hIndex]
    rfl
  · intro key b' hb'
    rcases Blockchain.blocks_addBlock_eq_some hb' with hOld | ⟨rfl, rfl⟩
    · exact h.known key b' hOld
    · exact ⟨rfl, hHash, hHeader, .inl hIndex⟩

/-- The first genesis block. -/
theorem follows_first {b : Block} (hIndex : b.index = 0) (hHash : b.hash = b.computeHash env.E)
    (hHeader : b.hashData ∈ headers) (k : Nat) :
    Follows env headers (k + 1)
      { state := genesisState env, blockchain := ({} : Blockchain).addBlock b } b.hash b [b] := by
  have hStored : (({} : Blockchain).addBlock b).blocks b.hash = some b :=
    Blockchain.blocks_addBlock_self rfl
  refine ⟨Blockchain.tip_addBlock_of_none rfl rfl, hStored, .genesis hStored hIndex, .genesis b,
    ?_, by simp, ?_, fun p hp => absurd hp (by simp)⟩
  · rw [hIndex]
    rfl
  · intro key b' hb'
    have hEither : ({} : Blockchain).blocks key = some b' ∨ key = b.hash ∧ b' = b :=
      Blockchain.blocks_addBlock_eq_some hb'
    rcases hEither with hOld | ⟨rfl, rfl⟩
    · exact absurd hOld (by simp)
    · exact ⟨rfl, hHash, hHeader, .inl hIndex⟩

theorem Follows.getLatestBlock (h : Follows env headers k n tip latest blocks) :
    n.blockchain.getLatestBlock = some latest := by
  rw [Blockchain.getLatestBlock, h.atTip]
  exact h.stored

theorem Follows.build (h : Follows env headers k n tip latest blocks) {n' : Node}
    {order : JournalOrder} {leader : Leader} {slot : Int64} {chosen : List Transaction}
    (hBuild : n.build env order leader slot chosen = .ok n') :
    Follows env headers (k + 1) n' tip latest blocks := by
  rcases build_eq_ok hBuild with rfl | ⟨last, b, staged, hLatest, hSlot, rfl, hExtends, hStages⟩
  · exact h.mono
  · obtain rfl : latest = last := Option.some.inj (h.getLatestBlock.symm.trans hLatest)
    refine { h.mono with proposed := fun p hp => ?_ }
    obtain rfl := Option.some.inj hp
    exact ⟨hExtends.prevHash, hExtends.index, hExtends.slotNumber ▸ hSlot, hExtends.hash, order,
      hStages⟩

theorem Follows.promote (h : Follows env headers k n tip latest blocks)
    (hInj : Set.InjOn env.E.sha256 headers) (hk : k + 1 < 2 ^ 63) (order : JournalOrder)
    (hHeaders : ∀ p ∈ n.proposal, p.block.hashData ∈ headers) :
    ∃ tip latest blocks, Follows env headers (k + 1) (n.promote env order) tip latest blocks := by
  unfold Node.promote
  cases hProposal : n.proposal with
  | none => exact ⟨tip, latest, blocks, h.mono⟩
  | some p =>
    obtain ⟨hPrev, hIndex, hSlot, hHash, order', hStages⟩ := h.proposed p hProposal
    exact ⟨_, _, _, h.extend hInj hk hPrev hIndex hSlot hHash (hHeaders p hProposal)
      (.led h.replays hStages _ (order.perm _))⟩

theorem Follows.receive (h : Follows env headers k n tip latest blocks)
    (hInj : Set.InjOn env.E.sha256 headers) (hk : k + 1 < 2 ^ 63) {order : JournalOrder}
    {slotLeader : Bytes} {b : Block} {n' : Node}
    (hFree : b.index = 0 ∨ n.proposal = none ∨ n.addBlock env order slotLeader b = .ok n)
    (hHeader : b.hashData ∈ headers) (hAdd : n.addBlock env order slotLeader b = .ok n') :
    ∃ tip latest blocks, Follows env headers (k + 1) n' tip latest blocks := by
  by_cases hIndex : b.index = 0
  · unfold Node.addBlock at hAdd
    rw [if_pos hIndex] at hAdd
    split at hAdd
    · rename_i hGenesis
      obtain rfl := pure_eq_ok.mp hAdd
      exact ⟨_, _, _, h.addGenesis hIndex hGenesis.2.2.2.2.2.2 hHeader⟩
    · obtain rfl := pure_eq_ok.mp hAdd
      exact ⟨_, _, _, h.mono⟩
  · rcases hFree with hZero | hIdle | hSame
    · exact absurd hZero hIndex
    · unfold Node.addBlock at hAdd
      simp only [hIndex, if_false, h.getLatestBlock] at hAdd
      split at hAdd
      · exact absurd hAdd (by simp)
      · obtain rfl := pure_eq_ok.mp hAdd
        exact ⟨_, _, _, h.mono⟩
      · rename_i staged hAccepted
        obtain rfl := pure_eq_ok.mp hAdd
        obtain ⟨hHeaderOk, -, hStages⟩ := validateBlock_eq_ok hAccepted
        obtain ⟨hNext, hSlot, hPrev, -, hHash⟩ := checkHeader_eq_ok hHeaderOk
        rw [hIdle]
        exact ⟨_, _, _, h.extend hInj hk hPrev.symm hNext.symm hSlot hHash hHeader
          (.validated h.replays hStages)⟩
    · obtain rfl := Except.ok.inj (hSame.symm.trans hAdd)
      exact ⟨_, _, _, h.mono⟩

/-- A node without blocks can only take a genesis block. -/
theorem follows_of_first_receive {order : JournalOrder} {slotLeader : Bytes} {b : Block} {n' : Node}
    (hHeader : b.hashData ∈ headers) (k : Nat)
    (hAdd : Node.addBlock env order slotLeader b { state := genesisState env } = .ok n') :
    n' = { state := genesisState env } ∨
      ∃ tip latest blocks, Follows env headers (k + 1) n' tip latest blocks := by
  unfold Node.addBlock at hAdd
  split at hAdd
  · rename_i hIndex
    split at hAdd
    · rename_i hGenesis
      obtain rfl := pure_eq_ok.mp hAdd
      exact .inr ⟨_, _, _, follows_first hIndex hGenesis.2.2.2.2.2.2 hHeader k⟩
    · exact .inl (pure_eq_ok.mp hAdd).symm
  · exact absurd hAdd (by simp [Blockchain.getLatestBlock])

/-- After every step the node is untouched or follows its chain. -/
theorem follows_of_run (hInj : Set.InjOn env.E.sha256 headers)
    (hRun : UndisturbedRun env headers k n) (hk : k < 2 ^ 63) :
    n = { state := genesisState env } ∨
      ∃ tip latest blocks, Follows env headers k n tip latest blocks := by
  induction hRun with
  | start => exact .inl rfl
  | @step k n n' step before undisturbed hashes run ih =>
    have hk' : k < 2 ^ 63 := by omega
    cases step with
    | addGenesis leader randomness =>
      obtain ⟨b, hBlock, hNode⟩ := bind_eq_ok.mp run
      obtain rfl := pure_eq_ok.mp hNode
      have hHeader := hashes b hBlock
      have hForm : b.index = 0 ∧ b.hash = b.computeHash env.E := by
        unfold newGenesisBlock at hBlock
        split at hBlock
        · exact absurd hBlock (by simp)
        · obtain rfl := pure_eq_ok.mp hBlock
          exact ⟨rfl, rfl⟩
      rcases ih hk' with rfl | ⟨tip, latest, blocks, h⟩
      · exact .inr ⟨_, _, _, follows_first hForm.1 hForm.2 hHeader k⟩
      · exact .inr ⟨_, _, _, h.addGenesis hForm.1 hForm.2 hHeader⟩
    | build order leader slot chosen =>
      rcases ih hk' with rfl | ⟨tip, latest, blocks, h⟩
      · exact absurd run (by simp [NodeStep.run, Node.build, Blockchain.getLatestBlock])
      · exact .inr ⟨_, _, _, h.build run⟩
    | promote order =>
      obtain rfl := pure_eq_ok.mp run
      rcases ih hk' with rfl | ⟨tip, latest, blocks, h⟩
      · exact .inl rfl
      · exact .inr (h.promote hInj hk order hashes)
    | receive order slotLeader block =>
      rcases ih hk' with rfl | ⟨tip, latest, blocks, h⟩
      · have hAdd : Node.addBlock env order slotLeader block { state := genesisState env } =
            .ok n' := run
        exact follows_of_first_receive hashes k hAdd
      · exact .inr (h.receive hInj hk undisturbed hashes run)

end Steps

/-- **When the state is the replay of the chain.** In every state that a node reaches by
undisturbed steps, it has no blocks yet or its state is a replay of the blocks from the genesis
block to its tip. -/
theorem state_replays_chain {env : Env} {headers : Set Bytes}
    (hInj : Set.InjOn env.E.sha256 headers) {k : Nat} (hk : k < 2 ^ 63) {n : Node}
    (hRun : UndisturbedRun env headers k n) :
    n.blockchain.tip = none ∧ n.state = genesisState env ∨
      ∃ tip blocks, n.blockchain.tip = some tip ∧ n.blockchain.ChainTo tip blocks ∧
        Replays env blocks n.state := by
  rcases follows_of_run hInj hRun hk with rfl | ⟨tip, latest, blocks, h⟩
  · exact .inl ⟨rfl, rfl⟩
  · exact .inr ⟨tip, blocks, h.atTip, h.chain, h.replays⟩

/-! ## A race -/

/-- Two registries, which pay each other. -/
def raceEnv : Env where
  E := .standIn fun _ => none
  trustedRegistries := [utf8 "alice", utf8 "bob"]
  slotsPerDay := 8640

def racePayment (payer payee : Bytes) : Transaction :=
  Blockchain.StandIn.signAs payer
    { tid := 1, type := .fund, ownerKey := payer, fee := 1, listPrice := 5, recipient := payee }

def raceStart : Node := { state := genesisState raceEnv }

def raceGenesis : NodeStep := .addGenesis (StandIn.leader (utf8 "alice") 0) []

/-- The node of alice leads slot 2. -/
def raceBuild : NodeStep :=
  .build (.ascending _ _) (StandIn.leader (utf8 "alice") 2) 2
    [racePayment (utf8 "alice") (utf8 "bob")]

def raceStep (n : Node) (step : NodeStep) : Node := okOr (step.run raceEnv n) n

/-- The block of bob in slot 1 reaches alice late. -/
def raceReceive : NodeStep :=
  .receive (.ascending _ _) (utf8 "bob")
    (StandIn.sealed raceEnv (StandIn.leader (utf8 "bob") 1) 1
      [racePayment (utf8 "bob") (utf8 "alice")] (raceStep raceStart raceGenesis))

def racePromote : NodeStep := .promote (.ascending _ _)

def raceHeaders : List Bytes :=
  [((raceStep raceStart raceGenesis).blockchain.getLatestBlock.map Block.hashData).getD [],
    (((raceStep (raceStep raceStart raceGenesis) raceBuild).proposal).map
      fun p => p.block.hashData).getD []]

/-- Without bob's block, alice's node follows its chain of two blocks. -/
theorem state_replays_chain_of_leader :
    ∃ n, UndisturbedRun raceEnv {x | x ∈ raceHeaders} 3 n ∧ n.blockchain.tip ≠ none ∧
      (n.blockchain.tip = none ∧ n.state = genesisState raceEnv ∨
        ∃ tip blocks, n.blockchain.tip = some tip ∧ n.blockchain.ChainTo tip blocks ∧
          Replays raceEnv blocks n.state) := by
  have hInj : Set.InjOn raceEnv.E.sha256 {x | x ∈ raceHeaders} :=
    Blockchain.StandIn.injOn_of_forall raceHeaders (fun _ h => h) (by decide +kernel)
  have hGenesis : raceGenesis.run raceEnv raceStart = .ok (raceStep raceStart raceGenesis) :=
    eq_ok_okOr (by decide +kernel) _
  have hBuild : raceBuild.run raceEnv (raceStep raceStart raceGenesis) =
      .ok (raceStep (raceStep raceStart raceGenesis) raceBuild) :=
    eq_ok_okOr (by decide +kernel) _
  have hPromote : racePromote.run raceEnv (raceStep (raceStep raceStart raceGenesis) raceBuild) =
      .ok (raceStep (raceStep (raceStep raceStart raceGenesis) raceBuild) racePromote) := rfl
  have hRun₁ : UndisturbedRun raceEnv {x | x ∈ raceHeaders} 1 (raceStep raceStart raceGenesis) := by
    have hFree : raceGenesis.Undisturbed raceEnv raceStart := trivial
    refine .step .start hFree (fun b hb => ?_) hGenesis
    have hHeader : (newGenesisBlock raceEnv (StandIn.leader (utf8 "alice") 0) []).toOption.any
        (fun b => b.hashData ∈ raceHeaders) = true := by
      decide +kernel
    rw [hb] at hHeader
    exact of_decide_eq_true hHeader
  have hRun₂ : UndisturbedRun raceEnv {x | x ∈ raceHeaders} 2
      (raceStep (raceStep raceStart raceGenesis) raceBuild) := by
    have hFree : raceBuild.Undisturbed raceEnv (raceStep raceStart raceGenesis) := rfl
    exact .step hRun₁ hFree trivial hBuild
  have hRun₃ : UndisturbedRun raceEnv {x | x ∈ raceHeaders} 3
      (raceStep (raceStep (raceStep raceStart raceGenesis) raceBuild) racePromote) := by
    have hFree : racePromote.Undisturbed raceEnv
        (raceStep (raceStep raceStart raceGenesis) raceBuild) := trivial
    refine .step hRun₂ hFree (fun p hp => ?_) hPromote
    have hHeader : (raceStep (raceStep raceStart raceGenesis) raceBuild).proposal.any
        (fun p => p.block.hashData ∈ raceHeaders) = true := by
      decide +kernel
    rw [hp] at hHeader
    exact of_decide_eq_true hHeader
  exact ⟨_, hRun₃, by decide +kernel, state_replays_chain hInj (by decide) hRun₃⟩

theorem not_replays_nil {env : Env} {s : ChainState} : ¬ Replays env [] s := by
  intro h
  generalize hBlocks : ([] : List Block) = blocks at h
  cases h <;> simp at hBlocks

/-- A replay of a genesis block and one block without a BUY: the ledger. -/
theorem ledger_of_replays_two {env : Env} {g b : Block} {s : ChainState}
    (hNoBuy : ∀ tx ∈ b.transactions, tx.type ≠ .buy) (h : Replays env [g, b] s) :
    ∃ ledger, ledgerPass b.transactions (genesisState env).ledger = .ok ledger ∧
      s.ledger = creditFees b.transactions b.slotLeader ledger := by
  obtain ⟨s₀, order, staged, hBefore, hStages, hLedger⟩ : ∃ s₀ order staged,
      Replays env [g] s₀ ∧ Stages env order s₀ b staged ∧ s.ledger = staged.ledger := by
    generalize hBlocks : [g, b] = blocks at h
    cases h with
    | genesis block => simp at hBlocks
    | @led blocks' s' b' order staged before stages range perm =>
      obtain ⟨rfl, hLast⟩ := List.append_inj' (show [g] ++ [b] = blocks' ++ [b'] from hBlocks) rfl
      obtain rfl := List.singleton_inj.mp hLast
      exact ⟨s', order, staged, before, stages, rfl⟩
    | @validated blocks' s' b' order staged before stages =>
      obtain ⟨rfl, hLast⟩ := List.append_inj' (show [g] ++ [b] = blocks' ++ [b'] from hBlocks) rfl
      obtain rfl := List.singleton_inj.mp hLast
      exact ⟨s', order, staged, before, stages, rfl⟩
  obtain rfl : s₀ = genesisState env := by
    generalize hBlocks : [g] = blocks at hBefore
    cases hBefore with
    | genesis block => rfl
    | @led blocks' _ b' _ _ before =>
      obtain ⟨rfl, -⟩ := List.append_inj' (show [] ++ [g] = blocks' ++ [b'] from hBlocks) rfl
      exact absurd before not_replays_nil
    | @validated blocks' _ b' _ _ before =>
      obtain ⟨rfl, -⟩ := List.append_inj' (show [] ++ [g] = blocks' ++ [b'] from hBlocks) rfl
      exact absurd before not_replays_nil
  obtain ⟨⟨ledger, st, hPass, hDomain, hSt, -, -⟩, -⟩ := hStages
  refine ⟨ledger, hPass, ?_⟩
  rw [hLedger, hSt]
  exact ledger_domainPass_of_no_buy hNoBuy hDomain

/-- Bob's block is accepted between the two halves of alice's loop. Her promotion then installs
the ledger of her own block, while the tip stays at bob's. -/
theorem promotion_overwrites_received_block :
    ∃ n, [raceGenesis, raceBuild, raceReceive, racePromote].foldlM
        (NodeStep.run raceEnv) raceStart = .ok n ∧
      (∃ tip, n.blockchain.tip = some tip ∧ ∀ blocks s, n.blockchain.ChainTo tip blocks →
        Replays raceEnv blocks s → s.ledger ≠ n.state.ledger) := by
  obtain ⟨n, hn⟩ : ∃ n, [raceGenesis, raceBuild, raceReceive, racePromote].foldlM
      (NodeStep.run raceEnv) raceStart = .ok n :=
    exists_eq_ok (by decide +kernel)
  -- what is stored at the tip and below it
  have hEval : ([raceGenesis, raceBuild, raceReceive, racePromote].foldlM
      (NodeStep.run raceEnv) raceStart).toOption.any (fun n =>
        n.blockchain.getLatestBlock.any fun b =>
          b.index ≠ 0 ∧ b.transactions = [racePayment (utf8 "bob") (utf8 "alice")] ∧
          (n.blockchain.blocks b.prevHash).any (fun g => g.index = 0) = true ∧
          (ledgerPass b.transactions (genesisState raceEnv).ledger).toOption.all (fun ledger =>
            (creditFees b.transactions b.slotLeader ledger).getBalance (hexEncode (utf8 "bob")) ≠
              n.state.ledger.getBalance (hexEncode (utf8 "bob"))) = true) = true := by
    decide +kernel
  simp only [hn, Except.toOption, Option.any_some] at hEval
  obtain ⟨last, hLast⟩ : ∃ last, n.blockchain.getLatestBlock = some last := by
    cases hLast : n.blockchain.getLatestBlock with
    | none => rw [hLast] at hEval; cases hEval
    | some last => exact ⟨last, rfl⟩
  rw [hLast] at hEval
  obtain ⟨hLater, hTxs, hGenesis, hBalance⟩ := of_decide_eq_true hEval
  obtain ⟨tip, hTip, hStored⟩ := Option.bind_eq_some_iff.mp hLast
  refine ⟨n, hn, tip, hTip, fun blocks s hChain hReplays hSame => ?_⟩
  -- the chain to the tip is the genesis block and bob's block
  obtain ⟨g, rfl⟩ : ∃ g, blocks = [g, last] := by
    cases hChain with
    | genesis stored first =>
      obtain rfl := Option.some.inj (hStored.symm.trans stored)
      exact absurd first hLater
    | step stored later chain =>
      obtain rfl := Option.some.inj (hStored.symm.trans stored)
      cases chain with
      | genesis stored₀ => exact ⟨_, rfl⟩
      | step stored₀ later₀ =>
        rw [stored₀] at hGenesis
        exact absurd (by simpa using hGenesis) later₀
  have hNoBuy : ∀ tx ∈ last.transactions, tx.type ≠ .buy := by
    rw [hTxs]
    decide
  obtain ⟨ledger, hPass, hLedger⟩ := ledger_of_replays_two hNoBuy hReplays
  rw [hPass] at hBalance
  refine absurd ?_ (of_decide_eq_true hBalance)
  rw [← hLedger, hSame]

end Bdns.Safety
