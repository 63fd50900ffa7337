import Bdns.Blockchain.Block
import Mathlib.Logic.Function.Basic

/-!
# The block store

`blockchain.go`: blocks by hash, and the hash of the tip under the key `l`. The bucket is a
map from hashes to blocks here and the tip a field of its own; block hashes are digests of 32
bytes, so the key `l` is not one of them.
-/

set_option linter.dupNamespace false

namespace Bdns.Blockchain

open Lib

structure Blockchain where
  blocks : Bytes → Option Block := fun _ => none
  tip : Option Bytes := none

namespace Blockchain

def getLatestBlock (bc : Blockchain) : Option Block := bc.tip.bind bc.blocks

/-- The comparison of a new block with the tip. -/
def extendsTip (bc : Blockchain) (block : Block) : Prop :=
  ∀ lastBlock ∈ bc.getLatestBlock,
    block.prevHash = lastBlock.hash ∧ block.index = lastBlock.index + 1

instance (bc : Blockchain) (block : Block) : Decidable (bc.extendsTip block) := by
  unfold extendsTip
  infer_instance

/-- The bucket with a block put into it. -/
def put (bc : Blockchain) (block : Block) : Blockchain :=
  { bc with blocks := Function.update bc.blocks block.hash (some block) }

/-- `AddBlock`: a stored hash is left alone, and the tip moves only to a block that extends
it. -/
def addBlock (bc : Blockchain) (block : Block) : Blockchain :=
  if (bc.blocks block.hash).isSome then bc
  else if (bc.put block).extendsTip block then { bc.put block with tip := some block.hash }
  else bc.put block

/-- The blocks from the genesis block to the one with hash `h`, as the iterator finds them
in reverse: it follows `PrevHash` until a block of index 0. -/
inductive ChainTo (bc : Blockchain) : Bytes → List Block → Prop
  | genesis {h : Bytes} {block : Block} (stored : bc.blocks h = some block)
      (first : block.index = 0) : ChainTo bc h [block]
  | step {h : Bytes} {block : Block} {before : List Block} (stored : bc.blocks h = some block)
      (later : block.index ≠ 0) (chain : ChainTo bc block.prevHash before) :
      ChainTo bc h (before ++ [block])

/-- The loop of `GetBlockByIndex`: the iterator walks back from a hash to a block of the index or
to the genesis block. A hash without a block makes `DeserializeBlock` panic. -/
def findByIndex (bc : Blockchain) (index : Int64) : Nat → Bytes → Go (Option Block)
  | 0, _ => pure none
  | fuel + 1, currentHash =>
    match bc.blocks currentHash with
    | none => throw .logPanic
    | some block =>
      if block.index = index then pure (some block)
      else if block.index = 0 then pure none
      else bc.findByIndex index fuel block.prevHash

def getBlockByIndex (bc : Blockchain) (fuel : Nat) (index : Int64) : Go (Option Block) :=
  bc.findByIndex index fuel (bc.tip.getD [])

variable {bc : Blockchain} {block : Block} {h : Bytes} {chain : List Block}

/-- On a chain the walk finds the last block of the index. -/
theorem ChainTo.findByIndex (hChain : ChainTo bc h chain) (index : Int64) {fuel : Nat}
    (hFuel : chain.length ≤ fuel) :
    bc.findByIndex index fuel h = .ok (chain.reverse.find? fun b => b.index = index) := by
  induction hChain generalizing fuel with
  | @genesis h block stored first =>
    obtain ⟨fuel, rfl⟩ := Nat.exists_eq_succ_of_ne_zero (n := fuel) (by simp at hFuel; omega)
    by_cases hIndex : block.index = index
    · simp [Blockchain.findByIndex, stored, hIndex, pure, Except.pure]
    · simp only [Blockchain.findByIndex, stored, if_neg hIndex, if_pos first]
      simp [hIndex, pure, Except.pure]
  | @step h block before stored later _ ih =>
    rw [List.length_append, List.length_singleton] at hFuel
    obtain ⟨fuel, rfl⟩ := Nat.exists_eq_succ_of_ne_zero (n := fuel) (by omega)
    rw [List.reverse_append, List.reverse_singleton, List.singleton_append, List.find?_cons]
    by_cases hIndex : block.index = index
    · simp [Blockchain.findByIndex, stored, hIndex, pure, Except.pure]
    · simp only [Blockchain.findByIndex, stored, if_neg later, hIndex, decide_false]
      exact ih (by omega)

/-- Stored blocks stay. -/
theorem blocks_addBlock_of_some {b : Block} (hb : bc.blocks h = some b) :
    (bc.addBlock block).blocks h = some b := by
  unfold addBlock
  split
  · exact hb
  · rename_i hNew
    have hNe : h ≠ block.hash := by
      rintro rfl
      simp [hb] at hNew
    split <;> simp [put, Function.update_of_ne hNe, hb]

theorem blocks_addBlock_self (hNew : bc.blocks block.hash = none) :
    (bc.addBlock block).blocks block.hash = some block := by
  unfold addBlock
  simp only [hNew, Option.isSome_none, Bool.false_eq_true, if_false]
  split <;> simp [put]

/-- What is stored was stored before or is the new block. -/
theorem blocks_addBlock_eq_some {b : Block} (hb : (bc.addBlock block).blocks h = some b) :
    bc.blocks h = some b ∨ h = block.hash ∧ b = block := by
  have hPut : (bc.put block).blocks h = some b →
      bc.blocks h = some b ∨ h = block.hash ∧ b = block := by
    intro hPut
    by_cases hKey : h = block.hash
    · subst hKey
      simp only [put, Function.update_self, Option.some.injEq] at hPut
      exact .inr ⟨rfl, hPut.symm⟩
    · simp only [put, Function.update_of_ne hKey] at hPut
      exact .inl hPut
  unfold addBlock at hb
  split at hb
  · exact .inl hb
  · split at hb
    · exact hPut hb
    · exact hPut hb

/-- Chains stay. -/
theorem ChainTo.addBlock (hChain : ChainTo bc h chain) : ChainTo (bc.addBlock block) h chain := by
  induction hChain with
  | genesis stored first => exact .genesis (blocks_addBlock_of_some stored) first
  | step stored later _ ih => exact .step (blocks_addBlock_of_some stored) later ih

/-- A new block that extends the tip becomes the tip. -/
theorem tip_addBlock_of_extends (hNew : bc.blocks block.hash = none) {tip : Bytes} {last : Block}
    (hTip : bc.tip = some tip) (hLast : bc.blocks tip = some last)
    (hPrev : block.prevHash = last.hash) (hIndex : block.index = last.index + 1) :
    (bc.addBlock block).tip = some block.hash := by
  have hNe : tip ≠ block.hash := by
    rintro rfl
    simp [hNew] at hLast
  unfold addBlock
  simp only [hNew, Option.isSome_none, Bool.false_eq_true, if_false]
  rw [if_pos]
  intro lastBlock hMem
  simp only [getLatestBlock, put, hTip, Option.bind_some, Function.update_of_ne hNe, hLast,
    Option.mem_def, Option.some.injEq] at hMem
  subst hMem
  exact ⟨hPrev, hIndex⟩

/-- A block that does not extend the tip leaves it. -/
theorem tip_addBlock_of_not_extends {tip : Bytes} {last : Block}
    (hTip : bc.tip = some tip) (hLast : bc.blocks tip = some last)
    (hOff : ¬ (block.prevHash = last.hash ∧ block.index = last.index + 1)) :
    (bc.addBlock block).tip = some tip := by
  unfold addBlock
  split
  · exact hTip
  · rename_i hNew
    have hNe : tip ≠ block.hash := by
      rintro rfl
      simp [hLast] at hNew
    rw [if_neg]
    · exact hTip
    · intro hExtends
      refine hOff (hExtends last ?_)
      simp [getLatestBlock, put, hTip, Function.update_of_ne hNe, hLast]

/-- The first block becomes the tip. -/
theorem tip_addBlock_of_none (hNew : bc.blocks block.hash = none) (hTip : bc.tip = none) :
    (bc.addBlock block).tip = some block.hash := by
  unfold addBlock
  simp only [hNew, Option.isSome_none, Bool.false_eq_true, if_false]
  rw [if_pos]
  intro lastBlock hMem
  simp [getLatestBlock, put, hTip] at hMem

theorem getLatestBlock_addBlock_of_none (hNew : bc.blocks block.hash = none)
    (hTip : bc.tip = none) : (bc.addBlock block).getLatestBlock = some block := by
  rw [getLatestBlock, tip_addBlock_of_none hNew hTip]
  exact blocks_addBlock_self hNew

end Blockchain

end Bdns.Blockchain
