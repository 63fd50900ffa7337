import Bdns.Blockchain.Database
import Bdns.Safety.Replication

/-!
# Forks

A node moves its tip only to a block that extends it, so the chain of a node is append-only, in
every interleaving of the leader's loop with blocks from peers (`OnLine.step`). A tip commits to the
hashes of all blocks below it (`hashes_eq_of_tip_eq`). So two nodes whose chains have parted never
come to the same tip again, whatever messages the network still carries: there is no step that
replaces a block.
-/

namespace Bdns.Safety

open Lib Blockchain Network Index

/-! ## Lines and their hashes -/

def hashes (chain : List Block) : List Bytes := chain.map fun b => b.hash

@[simp] theorem hashes_append (chain chain' : List Block) :
    hashes (chain ++ chain') = hashes chain ++ hashes chain' :=
  List.map_append

/-- Neither chain is a continuation of the other. -/
def Forked (chain chain' : List Block) : Prop :=
  ¬ hashes chain <+: hashes chain' ∧ ¬ hashes chain' <+: hashes chain

theorem forked_append {chain chain' : List Block} (h : Forked chain chain')
    (more more' : List Block) : Forked (chain ++ more) (chain' ++ more') := by
  obtain ⟨hLeft, hRight⟩ := h
  constructor
  · intro hPrefix
    rw [hashes_append, hashes_append] at hPrefix
    have hChain : hashes chain <+: hashes chain' ++ hashes more' :=
      (List.prefix_append _ _).trans hPrefix
    rcases List.prefix_or_prefix_of_prefix hChain (List.prefix_append _ _) with hp | hp
    · exact hLeft hp
    · exact hRight hp
  · intro hPrefix
    rw [hashes_append, hashes_append] at hPrefix
    have hChain : hashes chain' <+: hashes chain ++ hashes more :=
      (List.prefix_append _ _).trans hPrefix
    rcases List.prefix_or_prefix_of_prefix hChain (List.prefix_append _ _) with hp | hp
    · exact hRight hp
    · exact hLeft hp

/-- The hash of the parent stands at the end of what is hashed. -/
theorem prevHash_of_hashData_eq {b b' : Block} (h : b.hashData = b'.hashData)
    (hLength : b.prevHash.length = b'.prevHash.length) : b.prevHash = b'.prevHash := by
  unfold Block.hashData at h
  exact (List.append_inj' h hLength).2

/-- Blocks that are stored under the hash of their header. -/
def Hashed (E : External) (bc : Blockchain) : Prop :=
  ∀ h b, bc.blocks h = some b → b.hash = b.computeHash E

/-- The headers of the blocks in a store. -/
def headersOf (bc : Blockchain) : Set Bytes := {x | ∃ h b, bc.blocks h = some b ∧ b.hashData = x}

section Binding

variable {E : External} {bc bc' : Blockchain} {first first' last last' : Block}
  {line line' : List Block}

theorem hashData_eq_of_hash_eq (hHashed : Hashed E bc) (hHashed' : Hashed E bc')
    (hInj : Set.InjOn E.sha256 (headersOf bc ∪ headersOf bc')) {b b' : Block}
    (hStored : bc.blocks b.hash = some b) (hStored' : bc'.blocks b'.hash = some b')
    (hHash : b.hash = b'.hash) : b.hashData = b'.hashData := by
  have hDigest : b.computeHash E = b'.computeHash E := by
    rw [← hHashed b.hash b hStored, ← hHashed' b'.hash b' hStored', hHash]
  exact hInj (.inl ⟨_, _, hStored, rfl⟩) (.inr ⟨_, _, hStored', rfl⟩) hDigest

theorem line_ne_nil (hLine : Handle.Line bc first line last) : line ≠ [] := by
  cases hLine <;> simp

/-- A tip commits to the hashes of its whole chain. -/
theorem hashes_eq_of_tip_eq (hHashed : Hashed E bc) (hHashed' : Hashed E bc')
    (hInj : Set.InjOn E.sha256 (headersOf bc ∪ headersOf bc'))
    (hLine : Handle.Line bc first line last) (hLine' : Handle.Line bc' first' line' last')
    (hFirst : first.index = 0) (hFirst' : first'.index = 0) (hShort : line.length < 2 ^ 63)
    (hShort' : line'.length < 2 ^ 63) (hTip : last.hash = last'.hash) :
    hashes line = hashes line' := by
  -- the last blocks have one index, so the lines have one length
  have hData : ∀ {line line' : List Block} {last last' : Block},
      Handle.Line bc first line last → Handle.Line bc' first' line' last' →
      last.hash = last'.hash → last.hashData = last'.hashData := by
    intro line line' last last' hLine hLine' hTip
    exact hashData_eq_of_hash_eq hHashed hHashed' hInj hLine.stored_last hLine'.stored_last hTip
  have hLength : ∀ {line line' : List Block} {last last' : Block},
      Handle.Line bc first line last → Handle.Line bc' first' line' last' →
      line.length < 2 ^ 63 → line'.length < 2 ^ 63 → last.hash = last'.hash →
      line.length = line'.length := by
    intro line line' last last' hLine hLine' hShort hShort' hTip
    have hIndex := (index_slot_of_hashData_eq (hData hLine hLine' hTip)).1
    have hSucc : Int64.ofNat line.length = Int64.ofNat line'.length := by
      rw [← hLine.last_index hFirst, ← hLine'.last_index hFirst', hIndex]
    have hInt := congrArg Int64.toInt hSucc
    rw [Int64.toInt_ofNat_of_lt hShort, Int64.toInt_ofNat_of_lt hShort'] at hInt
    exact Int.ofNat.inj hInt
  induction hLine generalizing line' last' with
  | first stored =>
    have hOne := hLength (.first stored) hLine' hShort hShort' hTip
    cases hLine' with
    | first stored' => exact congrArg (fun h => [h]) hTip
    | next before' =>
      have hNil := List.length_pos_iff.mpr (line_ne_nil before')
      simp only [List.length_append, List.length_singleton] at hOne
      omega
  | @next line last block before stored prev index ih =>
    have hSame := hLength (.next before stored prev index) hLine' hShort hShort' hTip
    cases hLine' with
    | first stored' =>
      have hNil := List.length_pos_iff.mpr (line_ne_nil before)
      simp only [List.length_append, List.length_singleton] at hSame
      omega
    | @next line' last' block' before' stored' prev' index' =>
      have hHeader := hData (.next before stored prev index) (.next before' stored' prev' index')
        hTip
      have hDigest : last.hash.length = last'.hash.length := by
        rw [hHashed _ _ before.stored_last, hHashed' _ _ before'.stored_last, Block.computeHash,
          Block.computeHash, E.sha256_length, E.sha256_length]
      have hParent : last.hash = last'.hash := by
        rw [← prev, ← prev']
        exact prevHash_of_hashData_eq hHeader (by rw [prev, prev', hDigest])
      rw [List.length_append, List.length_singleton] at hShort hShort'
      rw [hashes_append, hashes_append, ih before' (by omega) (by omega) hParent]
      exact congrArg (hashes line' ++ [·]) hTip

end Binding

/-! ## Steps of a node -/

/-- What a node keeps in every interleaving of its steps: the blocks that became its tip are a line
from a genesis block, and what it stores or proposes has the hash of its header. -/
structure OnLine (env : Env) (n : Node) (line : List Block) : Prop where
  line : ∃ first last, Handle.Line n.blockchain first line last ∧ first.index = 0 ∧
    n.blockchain.tip = some last.hash
  hashed : Hashed env.E n.blockchain
  proposed : ∀ p ∈ n.proposal, p.block.hash = p.block.computeHash env.E

section Steps

variable {env : Env} {n n' : Node} {line : List Block} {b : Block}

theorem Hashed.addBlock {bc : Blockchain} (h : Hashed env.E bc)
    (hHash : b.hash = b.computeHash env.E) : Hashed env.E (bc.addBlock b) := by
  intro key b' hb'
  rcases Blockchain.blocks_addBlock_eq_some hb' with hOld | ⟨rfl, rfl⟩
  · exact h key b' hOld
  · exact hHash

/-- A stored block is left beside the line or continues it. -/
theorem OnLine.addBlock (h : OnLine env n line) (hHash : b.hash = b.computeHash env.E)
    (hStore : n'.blockchain = n.blockchain.addBlock b)
    (hProposed : ∀ p ∈ n'.proposal, p.block.hash = p.block.computeHash env.E) :
    OnLine env n' line ∨ OnLine env n' (line ++ [b]) := by
  obtain ⟨first, last, hLine, hFirst, hTip⟩ := h.line
  have hHashed : Hashed env.E n'.blockchain := hStore ▸ h.hashed.addBlock hHash
  have hNewTip := n.blockchain.tip_addBlock b
  by_cases hMoves : n.blockchain.movesTip b
  · rw [if_pos hMoves] at hNewTip
    refine .inr ⟨⟨first, b, ?_, hFirst, ?_⟩, hHashed, hProposed⟩
    · rw [hStore]
      exact hLine.next_of_movesTip hTip hMoves
    · rw [hStore, hNewTip]
  · rw [if_neg hMoves] at hNewTip
    refine .inl ⟨⟨first, last, ?_, hFirst, ?_⟩, hHashed, hProposed⟩
    · rw [hStore]
      exact hLine.addBlock b
    · rw [hStore, hNewTip, hTip]

theorem newGenesisBlock_form {leader : Leader} {randomness : Bytes}
    (h : newGenesisBlock env leader randomness = .ok b) :
    b.index = 0 ∧ b.hash = b.computeHash env.E := by
  unfold newGenesisBlock at h
  split at h
  · exact absurd h (by simp)
  · obtain rfl := pure_eq_ok.mp h
    exact ⟨rfl, rfl⟩

/-- What a block from a peer does to a node. -/
theorem addBlock_cases {order : JournalOrder} {slotLeader : Bytes}
    (h : n.addBlock env order slotLeader b = .ok n') :
    n' = n ∨ b.hash = b.computeHash env.E ∧ n'.proposal = n.proposal ∧
      n'.blockchain = n.blockchain.addBlock b ∧ (b.index = 0 ∨
        ∃ latest, n.blockchain.getLatestBlock = some latest ∧ b.prevHash = latest.hash ∧
          b.index = latest.index + 1) := by
  unfold Node.addBlock at h
  split at h
  · rename_i hIndex
    split at h
    · rename_i hGenesis
      obtain rfl := pure_eq_ok.mp h
      exact .inr ⟨hGenesis.2.2.2.2.2.2, rfl, rfl, .inl hIndex⟩
    · exact .inl (pure_eq_ok.mp h).symm
  · split at h
    · exact absurd h (by simp)
    · rename_i latest hLatest
      split at h
      · exact absurd h (by simp)
      · exact .inl (pure_eq_ok.mp h).symm
      · rename_i staged hAccepted
        obtain rfl := pure_eq_ok.mp h
        obtain ⟨hHeader, -, -⟩ := validateBlock_eq_ok hAccepted
        obtain ⟨hIndex, -, hPrev, -, hHash⟩ := checkHeader_eq_ok hHeader
        exact .inr ⟨hHash, rfl, rfl, .inr ⟨latest, hLatest, hPrev.symm, hIndex.symm⟩⟩

/-- One step leaves the line or continues it by a block. -/
theorem OnLine.step (h : OnLine env n line) {step : NodeStep} (hRun : step.run env n = .ok n') :
    OnLine env n' line ∨ ∃ b, OnLine env n' (line ++ [b]) := by
  cases step with
  | addGenesis leader randomness =>
    obtain ⟨b, hBlock, hNode⟩ := bind_eq_ok.mp hRun
    obtain rfl := pure_eq_ok.mp hNode
    have hNext := @OnLine.addBlock env n { n with blockchain := n.blockchain.addBlock b } line b h
      (newGenesisBlock_form hBlock).2 rfl h.proposed
    exact hNext.imp id fun hb => ⟨b, hb⟩
  | build order leader slot chosen =>
    rcases build_eq_ok hRun with rfl | ⟨latest, b, staged, -, -, rfl, hExtends, -⟩
    · exact .inl h
    · refine .inl ⟨h.line, h.hashed, fun p hp => ?_⟩
      obtain rfl := Option.some.inj hp
      exact hExtends.hash
  | promote order =>
    obtain rfl := pure_eq_ok.mp hRun
    unfold Node.promote
    cases hProposal : n.proposal with
    | none => exact .inl h
    | some p =>
      have hNone : ∀ q ∈ (none : Option Proposal), q.block.hash = q.block.computeHash env.E :=
        fun q hq => absurd hq (by simp)
      exact (h.addBlock (h.proposed p hProposal) rfl hNone).imp id fun hb => ⟨_, hb⟩
  | receive order slotLeader block =>
    rcases addBlock_cases hRun with rfl | ⟨hHash, hProposal, hStore, -⟩
    · exact .inl h
    · have hProposed : ∀ p ∈ n'.proposal, p.block.hash = p.block.computeHash env.E := by
        rw [hProposal]
        exact h.proposed
      exact (h.addBlock hHash hStore hProposed).imp id fun hb => ⟨block, hb⟩

/-- A node without a block: untouched, up to its state. -/
def Blank (n : Node) : Prop := n.blockchain = {} ∧ n.proposal = none

/-- The first block of a node is a genesis block. -/
theorem onLine_first (hBlank : Blank n) (hIndex : b.index = 0)
    (hHash : b.hash = b.computeHash env.E) (hStore : n'.blockchain = n.blockchain.addBlock b)
    (hProposal : n'.proposal = none) : OnLine env n' [b] := by
  obtain ⟨hEmpty, -⟩ := hBlank
  rw [hEmpty] at hStore
  have hStored : (({} : Blockchain).addBlock b).blocks b.hash = some b :=
    Blockchain.blocks_addBlock_self rfl
  refine ⟨⟨b, b, .first (hStore ▸ hStored), hIndex, ?_⟩, ?_, ?_⟩
  · rw [hStore]
    exact Blockchain.tip_addBlock_of_none rfl rfl
  · rw [hStore]
    have hNone : Hashed env.E ({} : Blockchain) := fun key b' hb' => absurd hb' (by simp)
    exact hNone.addBlock hHash
  · rw [hProposal]
    exact fun p hp => absurd hp (by simp)

/-- The first step of a node leaves it without a block or gives it a genesis block. -/
theorem step_of_blank (hBlank : Blank n) {step : NodeStep} (hRun : step.run env n = .ok n') :
    Blank n' ∨ ∃ b, OnLine env n' [b] := by
  have hLatest : n.blockchain.getLatestBlock = none := by
    rw [hBlank.1]
    rfl
  cases step with
  | addGenesis leader randomness =>
    obtain ⟨b, hBlock, hNode⟩ := bind_eq_ok.mp hRun
    obtain rfl := pure_eq_ok.mp hNode
    obtain ⟨hIndex, hHash⟩ := newGenesisBlock_form hBlock
    exact .inr ⟨b, onLine_first hBlank hIndex hHash rfl hBlank.2⟩
  | build order leader slot chosen =>
    rcases build_eq_ok hRun with rfl | ⟨latest, b, staged, hSome, -⟩
    · exact .inl hBlank
    · rw [hLatest] at hSome
      cases hSome
  | promote order =>
    obtain rfl := pure_eq_ok.mp hRun
    unfold Node.promote
    rw [hBlank.2]
    exact .inl hBlank
  | receive order slotLeader block =>
    rcases addBlock_cases hRun with rfl | ⟨hHash, hProposal, hStore, hZero | ⟨latest, hSome, -⟩⟩
    · exact .inl hBlank
    · exact .inr ⟨block, onLine_first hBlank hZero hHash hStore (hProposal.trans hBlank.2)⟩
    · rw [hLatest] at hSome
      cases hSome

end Steps

/-! ## Runs of a network -/

/-- Steps of the nodes of a network, interleaved in any way. Nothing is assumed about the blocks
that are received. -/
inductive NetRun {ι : Type} [DecidableEq ι] (env : Env) (start : ι → Node) :
    Nat → (ι → Node) → Prop
  | start : NetRun env start 0 start
  | step {k : Nat} {net : ι → Node} {n : Node} (before : NetRun env start k net) (i : ι)
      (step : NodeStep) (run : step.run env (net i) = .ok n) :
      NetRun env start (k + 1) (Function.update net i n)

section Runs

variable {ι : Type} [DecidableEq ι] {env : Env} {start net : ι → Node} {k : Nat} {i : ι}

/-- The line of a node only grows. -/
theorem NetRun.onLine (hRun : NetRun env start k net) {line : List Block}
    (h : OnLine env (start i) line) :
    ∃ more, OnLine env (net i) (line ++ more) ∧ more.length ≤ k := by
  induction hRun with
  | start => exact ⟨[], by rwa [List.append_nil], Nat.le_refl _⟩
  | @step k net n before j step run ih =>
    obtain ⟨more, hLine, hLength⟩ := ih
    by_cases hij : i = j
    · subst hij
      rw [Function.update_self]
      rcases hLine.step run with hSame | ⟨b, hNext⟩
      · exact ⟨more, hSame, by omega⟩
      · refine ⟨more ++ [b], by rwa [← List.append_assoc], ?_⟩
        rw [List.length_append, List.length_singleton]
        omega
    · rw [Function.update_of_ne hij]
      exact ⟨more, hLine, by omega⟩

/-- After any steps, a node that started without a block has none or is on a line. -/
theorem NetRun.blank_or_onLine (hRun : NetRun env start k net) (h : Blank (start i)) :
    Blank (net i) ∨ ∃ line, OnLine env (net i) line ∧ line.length ≤ k := by
  induction hRun with
  | start => exact .inl h
  | @step k net n before j step run ih =>
    by_cases hij : i = j
    · subst hij
      rw [Function.update_self]
      rcases ih with hBlank | ⟨line, hLine, hLength⟩
      · rcases step_of_blank hBlank run with hSame | ⟨b, hb⟩
        · exact .inl hSame
        · exact .inr ⟨[b], hb, by simp⟩
      · rcases hLine.step run with hSame | ⟨b, hNext⟩
        · exact .inr ⟨line, hSame, by omega⟩
        · refine .inr ⟨line ++ [b], hNext, ?_⟩
          rw [List.length_append, List.length_singleton]
          omega
    · rw [Function.update_of_ne hij]
      exact ih.imp id fun ⟨line, hLine, hLength⟩ => ⟨line, hLine, by omega⟩

end Runs

/-! ## Chains -/

section Chains

variable {env : Env} {n : Node} {tip : Bytes} {line chain : List Block}

/-- A line is the chain to the tip. -/
theorem OnLine.chainTo (h : OnLine env n line) (hShort : line.length ≤ 2 ^ 63) :
    ∃ tip, n.blockchain.tip = some tip ∧ n.blockchain.ChainTo tip line := by
  obtain ⟨first, last, hLine, hFirst, hTip⟩ := h.line
  exact ⟨last.hash, hTip, hLine.chainTo hFirst hShort⟩

theorem OnLine.eq_chain (h : OnLine env n line) (hShort : line.length ≤ 2 ^ 63)
    (hTip : n.blockchain.tip = some tip) (hChain : n.blockchain.ChainTo tip chain) :
    line = chain := by
  obtain ⟨tip', hTip', hLine⟩ := h.chainTo hShort
  obtain rfl : tip' = tip := Option.some.inj (hTip'.symm.trans hTip)
  exact chainTo_unique hLine hChain

/-- The blocks of a chain are stored. -/
theorem chainTo_stored {bc : Blockchain} {top : Bytes} {blocks : List Block}
    (h : bc.ChainTo top blocks) (hb : b ∈ blocks) : ∃ key, bc.blocks key = some b := by
  induction h with
  | genesis stored first => exact ⟨_, List.mem_singleton.mp hb ▸ stored⟩
  | step stored later chain ih =>
    rcases List.mem_append.mp hb with hOld | hLast
    · exact ih hOld
    · exact ⟨_, List.mem_singleton.mp hLast ▸ stored⟩

/-- The latest block of a node on a line, and its height. -/
theorem OnLine.latest (h : OnLine env n line) (hShort : line.length < 2 ^ 63) :
    ∃ last, n.blockchain.getLatestBlock = some last ∧
      n.blockchain.tip = some last.hash ∧ n.blockchain.blocks last.hash = some last ∧
      (last.index + 1).toInt = line.length ∧ 0 < line.length := by
  obtain ⟨first, last, hLine, hFirst, hTip⟩ := h.line
  refine ⟨last, ?_, hTip, hLine.stored_last, ?_, List.length_pos_iff.mpr (line_ne_nil hLine)⟩
  · rw [Blockchain.getLatestBlock, hTip]
    exact hLine.stored_last
  · rw [hLine.last_index hFirst, Int64.toInt_ofNat_of_lt hShort]

/-- The chain of a node after any steps of the network. -/
theorem OnLine.of_chain {ι : Type} [DecidableEq ι] {start net : ι → Node} {k : Nat}
    (hRun : NetRun env start k net) {i : ι} (hStart : Blank (start i)) (hBound : k < 2 ^ 63)
    (hTip : (net i).blockchain.tip = some tip) (hChain : (net i).blockchain.ChainTo tip chain) :
    OnLine env (net i) chain ∧ chain.length ≤ k := by
  rcases hRun.blank_or_onLine hStart with hBlank | ⟨line, hLine, hLength⟩
  · rw [hBlank.1] at hTip
    cases hTip
  · obtain rfl := hLine.eq_chain (by omega) hTip hChain
    exact ⟨hLine, hLength⟩

/-- Two nodes at one tip have one chain of hashes. -/
theorem OnLine.hashes_eq {n' : Node} {line' : List Block} (h : OnLine env n line)
    (h' : OnLine env n' line')
    (hInj : Set.InjOn env.E.sha256 (headersOf n.blockchain ∪ headersOf n'.blockchain))
    (hShort : line.length < 2 ^ 63) (hShort' : line'.length < 2 ^ 63)
    (hTip : n.blockchain.tip = n'.blockchain.tip) : hashes line = hashes line' := by
  obtain ⟨first, last, hLine, hFirst, hLast⟩ := h.line
  obtain ⟨first', last', hLine', hFirst', hLast'⟩ := h'.line
  rw [hLast, hLast'] at hTip
  exact hashes_eq_of_tip_eq h.hashed h'.hashed hInj hLine hLine' hFirst hFirst' hShort hShort'
    (Option.some.inj hTip)

end Chains

/-! ## Alice and bob part -/

/-- A block whose index does not follow that of the latest block changes nothing. -/
theorem addBlock_of_index_ne {env : Env} {order : JournalOrder} {slotLeader : Bytes}
    {n : Node} {b latest : Block} (hLatest : n.blockchain.getLatestBlock = some latest)
    (hLater : b.index ≠ 0) (hIndex : latest.index + 1 ≠ b.index) :
    n.addBlock env order slotLeader b = .ok n := by
  have hHeader : checkHeader env.E b latest slotLeader = .error (.reject .index) := by
    unfold checkHeader check
    rw [if_neg hIndex]
    rfl
  have hVerdict : validateBlock env order n.state b latest slotLeader =
      .error (.reject .index) := by
    unfold validateBlock
    rw [hHeader]
    rfl
  unfold Node.addBlock
  rw [if_neg hLater, hLatest]
  dsimp only
  rw [hVerdict]
  rfl

/-- The block of bob on the genesis block of alice, in slot 1. -/
def forkBlock : Block :=
  StandIn.sealed raceEnv (StandIn.leader (utf8 "bob") 1) 1
    [racePayment (utf8 "bob") (utf8 "alice")] (raceStep raceStart raceGenesis)

theorem fork_eval :
    (validateBlock raceEnv (.ascending _ _) (genesisState raceEnv) forkBlock replicaGenesis
      (utf8 "bob")).isOk = true ∧
    (forkBlock.index ≠ 0 ∧ forkBlock.hash ≠ replicaGenesis.hash ∧
      forkBlock.prevHash = replicaGenesis.hash ∧ forkBlock.index = replicaGenesis.index + 1 ∧
      replicaBlock.hash ≠ forkBlock.hash ∧ forkBlock.index + 1 ≠ replicaBlock.index) ∧
    ∀ x ∈ forkBlock.hashData :: replicaHeaders, ∀ y ∈ forkBlock.hashData :: replicaHeaders,
      Blockchain.StandIn.digest x = Blockchain.StandIn.digest y → x = y := by
  decide +kernel

theorem headersOf_on_replicaGenesis (b : Block) :
    headersOf (replicaStart.blockchain.addBlock b) ⊆ {b.hashData, replicaGenesis.hashData} := by
  rintro x ⟨h, b', hb', rfl⟩
  rcases Blockchain.blocks_addBlock_eq_some hb' with hOld | ⟨-, rfl⟩
  · change (({} : Blockchain).addBlock replicaGenesis).blocks h = some b' at hOld
    rcases Blockchain.blocks_addBlock_eq_some hOld with hNone | ⟨-, rfl⟩
    · exact absurd hNone (by simp)
    · exact .inr rfl
  · exact .inl rfl

/-- Two nodes take the genesis block. -/
theorem both_at_genesis : NetRun raceEnv (fun _ : Bool => raceStart) 2 (fun _ => replicaStart) := by
  have hFirst : NetRun raceEnv (fun _ : Bool => raceStart) 1
      (Function.update (fun _ => raceStart) true replicaStart) :=
    .step .start true (.receive (.ascending _ _) (utf8 "alice") replicaGenesis)
      (receive_replicaGenesis (.ascending _ _))
  have hBoth : Function.update (Function.update (fun _ => raceStart) true replicaStart) false
      replicaStart = fun _ : Bool => replicaStart := by
    funext i
    cases i
    · exact Function.update_self ..
    · rw [Function.update_of_ne (by decide), Function.update_self]
  rw [← hBoth]
  refine .step hFirst false (.receive (.ascending _ _) (utf8 "alice") replicaGenesis) ?_
  rw [Function.update_of_ne (by decide)]
  exact receive_replicaGenesis (.ascending _ _)

/-- The node `true` takes alice's block and the node `false` takes bob's. -/
theorem exists_fork : ∃ net : Bool → Node,
    NetRun raceEnv (fun _ => raceStart) 4 net ∧
      (net true).blockchain = replicaStart.blockchain.addBlock replicaBlock ∧
      (net false).blockchain = replicaStart.blockchain.addBlock forkBlock := by
  obtain ⟨staged, hAccepted⟩ := exists_eq_ok replica_eval.2.1.2
  obtain ⟨staged', hAccepted'⟩ := exists_eq_ok fork_eval.1
  have hAlice := receive_on_replicaGenesis none replica_eval.2.2.1.1 hAccepted
  have hBob := receive_on_replicaGenesis none fork_eval.2.1.1 hAccepted'
  have hRun₃ := NetRun.step both_at_genesis true
    (.receive reversedOrder (utf8 "alice") replicaBlock) hAlice
  have hRun₄ := NetRun.step hRun₃ false (.receive (.ascending _ _) (utf8 "bob") forkBlock) (by
    rw [Function.update_of_ne (by decide)]
    exact hBob)
  refine ⟨_, hRun₄, ?_, ?_⟩
  · rw [Function.update_of_ne (by decide), Function.update_self]
  · rw [Function.update_self]

theorem forked_pair {g b b' : Block} (hNe : b.hash ≠ b'.hash) : Forked [g, b] [g, b'] := by
  constructor
  · intro hPrefix
    have hSame : hashes [g, b] = hashes [g, b'] := hPrefix.eq_of_length rfl
    exact hNe (List.cons.inj (List.cons.inj hSame).2).1
  · intro hPrefix
    have hSame : hashes [g, b'] = hashes [g, b] := hPrefix.eq_of_length rfl
    exact hNe (List.cons.inj (List.cons.inj hSame).2).1.symm

theorem chains_of_fork {net : Bool → Node}
    (hAlice : (net true).blockchain = replicaStart.blockchain.addBlock replicaBlock)
    (hBob : (net false).blockchain = replicaStart.blockchain.addBlock forkBlock) :
    ((net true).blockchain.tip = some replicaBlock.hash ∧
        (net true).blockchain.ChainTo replicaBlock.hash [replicaGenesis, replicaBlock]) ∧
      (net false).blockchain.tip = some forkBlock.hash ∧
        (net false).blockchain.ChainTo forkBlock.hash [replicaGenesis, forkBlock] := by
  obtain ⟨-, -, ⟨hLater, hNe, hPrev, hIndex, -⟩, -⟩ := replica_eval
  obtain ⟨-, ⟨hLater', hNe', hPrev', hIndex', -⟩, -⟩ := fork_eval
  rw [hAlice, hBob]
  have hFirst : replicaGenesis.index = 0 := replica_eval.1.2.1
  exact ⟨⟨tip_on_first hNe hPrev hIndex, chainTo_on_first hFirst hLater hNe hPrev⟩,
    tip_on_first hNe' hPrev' hIndex', chainTo_on_first hFirst hLater' hNe' hPrev'⟩

/-! ## Theorems -/

/-- **A fork never heals.** Once the chains of two nodes have parted, then after any further steps
of any nodes, with any blocks received, each of them has only appended to its chain, and their tips
differ. -/
theorem forks_are_permanent {ι : Type} [DecidableEq ι] {env : Env} {start net net' : ι → Node}
    (hStart : ∀ i, Blank (start i)) {k k' : Nat} (hBound : k + k' < 2 ^ 63)
    (hRun : NetRun env start k net) (hLater : NetRun env net k' net') {i j : ι}
    (hInj : Set.InjOn env.E.sha256
      (headersOf (net' i).blockchain ∪ headersOf (net' j).blockchain))
    {tip tip' : Bytes} {chain chain' : List Block}
    (hTip : (net i).blockchain.tip = some tip) (hTip' : (net j).blockchain.tip = some tip')
    (hChain : (net i).blockchain.ChainTo tip chain)
    (hChain' : (net j).blockchain.ChainTo tip' chain') (hFork : Forked chain chain') :
    ∃ newTip newTip' more more', (net' i).blockchain.tip = some newTip ∧
      (net' j).blockchain.tip = some newTip' ∧
      (net' i).blockchain.ChainTo newTip (chain ++ more) ∧
      (net' j).blockchain.ChainTo newTip' (chain' ++ more') ∧
      Forked (chain ++ more) (chain' ++ more') ∧ newTip ≠ newTip' := by
  obtain ⟨hLine, hLength⟩ := OnLine.of_chain hRun (hStart i) (by omega) hTip hChain
  obtain ⟨hLine', hLength'⟩ := OnLine.of_chain hRun (hStart j) (by omega) hTip' hChain'
  obtain ⟨more, hNow, hMore⟩ := hLater.onLine hLine
  obtain ⟨more', hNow', hMore'⟩ := hLater.onLine hLine'
  have hShort : (chain ++ more).length < 2 ^ 63 := by
    rw [List.length_append]
    omega
  have hShort' : (chain' ++ more').length < 2 ^ 63 := by
    rw [List.length_append]
    omega
  obtain ⟨newTip, hNewTip, hNewChain⟩ := hNow.chainTo (by omega)
  obtain ⟨newTip', hNewTip', hNewChain'⟩ := hNow'.chainTo (by omega)
  have hParted := forked_append hFork more more'
  refine ⟨newTip, newTip', more, more', hNewTip, hNewTip', hNewChain, hNewChain', hParted, ?_⟩
  rintro rfl
  have hSame := hNow.hashes_eq hNow' hInj hShort hShort' (hNewTip.trans hNewTip'.symm)
  exact hParted.1 (hSame ▸ List.prefix_refl _)

/-- Bob's node still receives alice's block, and stays where it is. -/
theorem forks_are_permanent_alice_bob :
    ∃ net net' : Bool → Node, NetRun raceEnv (fun _ => raceStart) 4 net ∧
      NetRun raceEnv net 1 net' ∧
      (net' true).blockchain.tip ≠ none ∧
      (net' true).blockchain.tip ≠ (net' false).blockchain.tip := by
  obtain ⟨net, hRun, hAlice, hBob⟩ := exists_fork
  obtain ⟨⟨hTip, hChain⟩, hTip', hChain'⟩ := chains_of_fork hAlice hBob
  obtain ⟨-, ⟨hLater, hNe, -, -, -, hIndex⟩, hDigests⟩ := fork_eval
  have hLatest : (net false).blockchain.getLatestBlock = some forkBlock := by
    rw [Blockchain.getLatestBlock, hTip', hBob]
    exact Blockchain.blocks_addBlock_self (blocks_on_first hNe)
  have hSame := @addBlock_of_index_ne raceEnv (.ascending _ _) (utf8 "alice") _ _ _ hLatest
    replica_eval.2.2.1.1 hIndex
  have hMore : NetRun raceEnv net 1 (Function.update net false (net false)) :=
    .step .start false (.receive (.ascending _ _) (utf8 "alice") replicaBlock) hSame
  rw [Function.update_eq_self] at hMore
  have hInj : Set.InjOn raceEnv.E.sha256
      (headersOf (net true).blockchain ∪ headersOf (net false).blockchain) := by
    refine Blockchain.StandIn.injOn_of_forall _ ?_ hDigests
    rw [hAlice, hBob]
    rintro x (hx | hx)
    · rcases headersOf_on_replicaGenesis _ hx with rfl | rfl <;> simp [replicaHeaders]
    · rcases headersOf_on_replicaGenesis _ hx with rfl | rfl <;> simp [replicaHeaders]
  obtain ⟨newTip, newTip', more, more', hNew, hNew', -, -, -, hApart⟩ :=
    forks_are_permanent (fun _ => ⟨rfl, rfl⟩) (by decide) hRun hMore hInj hTip hTip' hChain hChain'
      (forked_pair fork_eval.2.1.2.2.2.2.1)
  refine ⟨net, net, hRun, hMore, ?_, ?_⟩
  · rw [hNew]
    simp
  · rw [hNew, hNew']
    exact fun hEq => hApart (Option.some.inj hEq)

end Bdns.Safety
