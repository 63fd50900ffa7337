import Bdns.Blockchain.Coins
import Bdns.Network.Node

/-!
# What a leader builds

`CreateBlockIfLeader` read backwards: the sealed block extends the block that was read first, and
its staging copies are those of the passes of a validator over the same list.
-/

namespace Bdns.Network

open Lib Blockchain Index

variable {env : Env} {order : JournalOrder} {leader : Leader} {s : ChainState}
  {latestBlock b : Block} {slot : Int64} {txs : List Transaction} {staged : Staged}

/-- How a block of a leader extends the latest one. -/
structure Extends (env : Env) (leader : Leader) (latestBlock b : Block) (slot : Int64)
    (txs : List Transaction) : Prop where
  index : b.index = latestBlock.index + 1
  slotNumber : b.slotNumber = slot
  slotLeader : b.slotLeader = leader.publicKey
  transactions : b.transactions = txs
  prevHash : b.prevHash = latestBlock.hash
  hash : b.hash = b.computeHash env.E

theorem newBlock_eq_ok (h : newBlock env leader latestBlock slot txs staged = .ok b) :
    Extends env leader latestBlock b slot txs := by
  obtain ⟨root, -, h⟩ := bind_eq_ok.mp h
  obtain rfl := pure_eq_ok.mp h
  exact ⟨rfl, rfl, rfl, rfl, rfl, rfl⟩

/-- The staging copies of a leader are those that a validator of its block computes. -/
theorem stages_of_stageBlock (hExtends : Extends env leader latestBlock b slot txs)
    (h : stageBlock env order leader s latestBlock slot txs = .ok staged) :
    Stages env order s b staged := by
  obtain ⟨hIndex, rfl, hLeader, rfl, -, -⟩ := hExtends
  unfold stageBlock at h
  obtain ⟨⟨ledger, stakes⟩, hPass, h⟩ := bind_eq_ok.mp h
  obtain ⟨st, hDomain, h⟩ := bind_eq_ok.mp h
  obtain rfl := pure_eq_ok.mp h
  obtain ⟨hLedger, hStakes⟩ := leaderPass_eq_ok.mp hPass
  refine ⟨⟨ledger, st, hLedger, ?_, rfl, rfl, rfl⟩, hStakes⟩
  rw [hIndex, hLeader]
  exact hDomain

/-- A node that has built a block: what it read and what it staged. -/
theorem build_eq_ok {n n' : Node} {chosen : List Transaction}
    (h : n.build env order leader slot chosen = .ok n') :
    n' = n ∨ ∃ latestBlock b staged, n.blockchain.getLatestBlock = some latestBlock ∧
      latestBlock.slotNumber < slot ∧ n' = { n with proposal := some ⟨b, staged⟩ } ∧
      Extends env leader latestBlock b slot
        (generateAutoRevocations n.state.index slot chosen ++ chosen) ∧
      Stages env order n.state b staged := by
  unfold Node.build at h
  split at h
  · exact absurd h (by simp)
  · rename_i latestBlock hLatest
    dsimp only at h
    split at h
    · exact .inl (pure_eq_ok.mp h).symm
    · split at h
      · exact .inl (pure_eq_ok.mp h).symm
      · rename_i hSlot
        obtain ⟨staged, hStaged, h⟩ := bind_eq_ok.mp h
        obtain ⟨b, hBlock, h⟩ := bind_eq_ok.mp h
        have hExtends := newBlock_eq_ok hBlock
        exact .inr ⟨latestBlock, b, staged, hLatest, Int64.not_le.mp hSlot,
          (pure_eq_ok.mp h).symm, hExtends, stages_of_stageBlock hExtends hStaged⟩

end Bdns.Network
