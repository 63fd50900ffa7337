import Bdns.Blockchain.Block
import Bdns.Lib.FiniteMap

/-!
# Pending commits

`commit.go`: the store of COMMITs that await their REVEAL, keyed by the hexadecimal form of
the commit hash, and the overlay in which one block is validated and applied.
-/

namespace Bdns.Blockchain

open Lib Std

structure CommitRecord where
  commitHash : Bytes
  committerPK : Bytes
  /-- The block index at which the COMMIT was included. -/
  commitBlock : Int64
  commitSlot : Int64
  commitTID : Int64
  expiryBlock : Int64
  deriving DecidableEq

def CommitRecord.hashData (rec : CommitRecord) : Bytes :=
  rec.commitHash ++ rec.committerPK ++ intToByteArr rec.commitBlock ++
    intToByteArr rec.commitSlot ++ intToByteArr rec.commitTID ++ intToByteArr rec.expiryBlock

def CommitRecord.key (rec : CommitRecord) : Bytes := hexEncode rec.commitHash

structure CommitStore where
  pending : ExtTreeMap Bytes CommitRecord compare := ∅

namespace CommitStore

def addCommit (cs : CommitStore) (record : CommitRecord) : CommitStore :=
  ⟨cs.pending.insert record.key record⟩

def getCommit (cs : CommitStore) (commitHashHex : Bytes) : Option CommitRecord :=
  cs.pending[commitHashHex]?

def consumeCommit (cs : CommitStore) (commitHashHex : Bytes) : CommitStore :=
  ⟨cs.pending.erase commitHashHex⟩

def purgeExpired (cs : CommitStore) (currentBlockIndex : Int64) : CommitStore :=
  ⟨cs.pending.filter fun _ record => ¬ record.expiryBlock < currentBlockIndex⟩

/-- The bytes both `Hash` methods digest: the records in the order of their keys. -/
def hashDataOf (pending : ExtTreeMap Bytes CommitRecord compare) : Bytes :=
  pending.toList.flatMap fun e => e.2.hashData

def hash (E : External) (cs : CommitStore) : Bytes := E.sha256 (hashDataOf cs.pending)

end CommitStore

/-- The commits as one block sees and changes them. `consumed` and `purged` are Go maps to
`bool` that are read by key and flushed by deletion only, hence predicates here. -/
structure CommitOverlay where
  base : ExtTreeMap Bytes CommitRecord compare
  added : ExtTreeMap Bytes CommitRecord compare := ∅
  consumed : Bytes → Bool := fun _ => false
  purged : Bytes → Bool := fun _ => false
  blockIndex : Int64

namespace CommitOverlay

def newCommitOverlay (base : CommitStore) (blockIndex : Int64) : CommitOverlay :=
  { base := base.pending, blockIndex := blockIndex }

def addCommit (co : CommitOverlay) (record : CommitRecord) : CommitOverlay :=
  { co with added := co.added.insert record.key record }

def getCommit (co : CommitOverlay) (commitHashHex : Bytes) : Option CommitRecord :=
  if co.consumed commitHashHex || co.purged commitHashHex then none
  else
    match co.added[commitHashHex]? with
    | some rec => some rec
    | none => co.base[commitHashHex]?.filter fun rec => ¬ rec.expiryBlock < co.blockIndex

def consumeCommit (co : CommitOverlay) (commitHashHex : Bytes) : CommitOverlay :=
  { co with
    consumed := Function.update co.consumed commitHashHex true
    added := co.added.erase commitHashHex }

def purgeExpired (co : CommitOverlay) (currentBlockIndex : Int64) : CommitOverlay :=
  { co with
    purged := fun key => co.purged key || (!co.consumed key &&
      co.base[key]?.any fun rec => rec.expiryBlock < currentBlockIndex)
    added := co.added.filter fun _ rec => ¬ rec.expiryBlock < currentBlockIndex }

/-- The map that `Hash` merges before it sorts the keys. -/
def merged (co : CommitOverlay) : ExtTreeMap Bytes CommitRecord compare :=
  (co.base.filter fun k _ => !co.consumed k && !co.purged k) ∪ co.added

def hash (E : External) (co : CommitOverlay) : Bytes := E.sha256 (CommitStore.hashDataOf co.merged)

/-- `Commit`: the additions first, then the deletions. -/
def commit (co : CommitOverlay) (target : CommitStore) : CommitStore :=
  ⟨(target.pending ∪ co.added).filter fun k _ => !co.consumed k && !co.purged k⟩

/-! ## What the lookups see -/

/-- A record is found only where no REVEAL or purge has hidden it. -/
theorem getCommit_eq_some {co : CommitOverlay} {key : Bytes} {rec : CommitRecord} :
    co.getCommit key = some rec ↔
      co.consumed key = false ∧ co.purged key = false ∧
        (co.added[key]? = some rec ∨
          co.added[key]? = none ∧ co.base[key]? = some rec ∧ ¬ rec.expiryBlock < co.blockIndex) := by
  unfold getCommit
  cases co.consumed key <;> cases co.purged key <;> cases co.added[key]? <;>
    simp [Option.filter_eq_some_iff]

theorem getCommit_addCommit (co : CommitOverlay) (record : CommitRecord) (key : Bytes) :
    (co.addCommit record).getCommit key =
      if record.key = key ∧ co.consumed key = false ∧ co.purged key = false then some record
      else co.getCommit key := by
  unfold getCommit addCommit
  simp only [getElem?_insert_eq_ite]
  by_cases hKey : record.key = key <;> cases co.consumed key <;> cases co.purged key <;>
    simp [hKey]

theorem getCommit_consumeCommit (co : CommitOverlay) (key key' : Bytes) :
    (co.consumeCommit key).getCommit key' = if key = key' then none else co.getCommit key' := by
  unfold getCommit consumeCommit
  simp only [getElem?_erase_eq_ite]
  by_cases hKey : key = key'
  · subst hKey
    simp
  · have hNe : key' ≠ key := fun h => hKey h.symm
    simp [hKey, hNe, Function.update_of_ne]

theorem getCommit_commit (co : CommitOverlay) (target : CommitStore) (key : Bytes) :
    (co.commit target).getCommit key =
      if co.consumed key || co.purged key then none
      else (co.added[key]?).or (target.getCommit key) := by
  simp only [CommitStore.getCommit, commit, ExtTreeMap.getElem?_filter',
    ExtTreeMap.getElem?_union]
  cases co.consumed key <;> cases co.purged key <;>
    cases (co.added[key]?).or target.pending[key]? <;> simp

end CommitOverlay

end Bdns.Blockchain
