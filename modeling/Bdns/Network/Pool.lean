import Bdns.Network.Node

/-!
# The pool of pending transactions

`TransactionPool` and the code around it: `AddTransaction` and the clean-up in `AddBlock`
(`node_helper.go`), `ChooseTxFromPool` and the re-queue of a leader whose slot was committed in
the meantime (`node_leader.go`). The pool is checked as a whole when a transaction is added, and
at no other time.
-/

namespace Bdns.Network

open Lib Blockchain Index

/-! ## The pool -/

/-- A Go map from numbers to transactions. -/
structure TransactionPool where
  txs : Std.ExtTreeMap Int64 Transaction compare := ∅
  /-- Transactions are stored under their own number. -/
  keyed : ∀ (tid : Int64) (tx : Transaction), txs[tid]? = some tx → tx.tid = tid := by simp

namespace TransactionPool

/-- `TransactionPool[tx.TID] = tx`. -/
def put (pool : TransactionPool) (tx : Transaction) : TransactionPool where
  txs := pool.txs.insert tx.tid tx
  keyed tid tx' h := by
    rw [getElem?_insert_eq_ite] at h
    split at h
    · rename_i hTid
      exact Option.some.inj h ▸ hTid
    · exact pool.keyed tid tx' h

/-- `delete(TransactionPool, tid)`. -/
def delete (pool : TransactionPool) (tid : Int64) : TransactionPool where
  txs := pool.txs.erase tid
  keyed tid' tx h := by
    rw [getElem?_erase_eq_ite] at h
    split at h
    · exact absurd h (by simp)
    · exact pool.keyed tid' tx h

/-- `RemoveTxsFromPool`. -/
def removeTxsFromPool (txs : List Transaction) (pool : TransactionPool) : TransactionPool :=
  txs.foldl (fun pool tx => pool.delete tx.tid) pool

/-- `ChooseTxFromPool`: the first `limit` transactions that the loop over the map visits. -/
def chooseTxFromPool (limit : Nat)
    (range : List (Int64 × Transaction) → List (Int64 × Transaction)) (pool : TransactionPool) :
    List Transaction × TransactionPool :=
  let transactions := ((range pool.txs.toList).take limit).map Prod.snd
  (transactions, removeTxsFromPool transactions pool)

/-- The comparison by which `AddTransaction` sorts. -/
def less (a b : Transaction) : Prop :=
  if a.nonce ≠ b.nonce then a.nonce < b.nonce else a.tid < b.tid

instance (a b : Transaction) : Decidable (less a b) :=
  inferInstanceAs (Decidable (if a.nonce ≠ b.nonce then a.nonce < b.nonce else a.tid < b.tid))

/-- `sort.Slice` with this comparison. It is not stable, but the numbers in a pool differ. -/
def sortByNonce (txs : List Transaction) : List Transaction :=
  txs.insertionSort fun a b => ¬ less b a

def toList (pool : TransactionPool) : List Transaction := pool.txs.toList.map Prod.snd

/-- The transactions of the pool in the order of `AddTransaction`. -/
def sorted (pool : TransactionPool) : List Transaction := sortByNonce pool.toList

/-- The list that `AddTransaction` validates. -/
def pendingList (pool : TransactionPool) (tx : Transaction) : List Transaction :=
  sortByNonce (pool.toList ++ [tx])

/-! ### Sorting -/

theorem not_less_iff {a b : Transaction} :
    ¬ less b a ↔ a.nonce.toNat < b.nonce.toNat ∨
      a.nonce.toNat = b.nonce.toNat ∧ a.tid.toInt ≤ b.tid.toInt := by
  unfold less
  split
  · rename_i hNonce
    rw [ne_eq, ← UInt64.toNat_inj] at hNonce
    rw [UInt64.lt_iff_toNat_lt]
    omega
  · rename_i hNonce
    rw [not_not, ← UInt64.toNat_inj] at hNonce
    rw [Int64.lt_iff_toInt_lt]
    omega

instance : Std.Total fun a b : Transaction => ¬ less b a := by
  refine ⟨fun a b => ?_⟩
  rw [not_less_iff, not_less_iff]
  omega

instance : IsTrans Transaction fun a b => ¬ less b a := by
  refine ⟨fun a b c hab hbc => ?_⟩
  rw [not_less_iff] at *
  omega

theorem sortByNonce_perm (txs : List Transaction) : (sortByNonce txs).Perm txs :=
  List.perm_insertionSort _ _

/-- Sorted lists of the same transactions are equal where the numbers differ. -/
theorem eq_of_perm_of_pairwise {txs txs' : List Transaction} (hPerm : txs.Perm txs')
    (hTids : ∀ a ∈ txs, ∀ b ∈ txs, a.tid = b.tid → a = b)
    (h : txs.Pairwise fun a b => ¬ less b a) (h' : txs'.Pairwise fun a b => ¬ less b a) :
    txs = txs' := by
  refine List.Perm.eq_of_pairwise (fun a b ha hb hab hba => ?_) h h' hPerm
  rw [not_less_iff] at hab hba
  refine hTids a ha b (hPerm.mem_iff.mpr hb) (Int64.toInt_inj.mp ?_)
  omega

theorem pairwise_sortByNonce (txs : List Transaction) :
    (sortByNonce txs).Pairwise fun a b => ¬ less b a :=
  List.pairwise_insertionSort _ txs

variable {pool : TransactionPool} {tx : Transaction}

theorem mem_toList : tx ∈ pool.toList ↔ pool.txs[tx.tid]? = some tx := by
  unfold toList
  rw [List.mem_map]
  constructor
  · rintro ⟨e, he, rfl⟩
    have hGet := Std.ExtTreeMap.mem_toList_iff_getElem?_eq_some.mp he
    rwa [pool.keyed e.1 e.2 hGet]
  · intro h
    exact ⟨(tx.tid, tx), Std.ExtTreeMap.mem_toList_iff_getElem?_eq_some.mpr h, rfl⟩

theorem mem_sorted : tx ∈ pool.sorted ↔ tx ∈ pool.toList := (sortByNonce_perm _).mem_iff

theorem eq_of_tid_eq {a b : Transaction} (ha : a ∈ pool.toList) (hb : b ∈ pool.toList)
    (hTid : a.tid = b.tid) : a = b := by
  rw [mem_toList] at ha hb
  rw [hTid] at ha
  exact Option.some.inj (ha.symm.trans hb)

theorem toList_put_perm (hNew : pool.txs[tx.tid]? = none) :
    (pool.put tx).toList.Perm (pool.toList ++ [tx]) := by
  have hInsert := (toList_insert_perm pool.txs tx.tid tx).map Prod.snd
  rw [erase_of_getElem?_none hNew] at hInsert
  exact hInsert.trans (List.perm_append_singleton tx _).symm

/-- The list that was validated is the new pool in order. -/
theorem sorted_put (hNew : pool.txs[tx.tid]? = none) :
    (pool.put tx).sorted = pool.pendingList tx := by
  have hPerm : (pool.put tx).sorted.Perm (pool.pendingList tx) :=
    (sortByNonce_perm _).trans ((toList_put_perm hNew).trans (sortByNonce_perm _).symm)
  refine eq_of_perm_of_pairwise hPerm (fun a ha b hb => ?_) (pairwise_sortByNonce _)
    (pairwise_sortByNonce _)
  exact eq_of_tid_eq (mem_sorted.mp ha) (mem_sorted.mp hb)

/-- A new transaction takes its place in the sorted pool. -/
theorem pendingList_split (pool : TransactionPool) (tx : Transaction) :
    ∃ before after, pool.pendingList tx = before ++ tx :: after ∧
      pool.sorted = before ++ after := by
  have hMem : tx ∈ pool.pendingList tx := (sortByNonce_perm _).mem_iff.mpr (by simp)
  obtain ⟨before, after, hSplit⟩ := List.append_of_mem hMem
  refine ⟨before, after, hSplit, ?_⟩
  have hPerm : (before ++ tx :: after).Perm (pool.toList ++ [tx]) :=
    hSplit ▸ sortByNonce_perm (pool.toList ++ [tx])
  have hRest : (before ++ after).Perm pool.toList :=
    (List.perm_middle.symm.trans (hPerm.trans (List.perm_append_singleton tx _))).cons_inv
  refine eq_of_perm_of_pairwise ((sortByNonce_perm _).trans hRest.symm)
    (fun a ha b hb => eq_of_tid_eq (mem_sorted.mp ha) (mem_sorted.mp hb)) (pairwise_sortByNonce _) ?_
  have hSorted : (before ++ tx :: after).Pairwise fun a b => ¬ less b a :=
    hSplit ▸ pairwise_sortByNonce (pool.toList ++ [tx])
  exact hSorted.sublist (List.Sublist.append_left (List.sublist_cons_self tx after) before)

/-- What is chosen are some transactions of the pool, in some order. -/
theorem chooseTxFromPool_subperm (limit : Nat)
    {range : List (Int64 × Transaction) → List (Int64 × Transaction)}
    (hRange : ∀ xs, (range xs).Perm xs) :
    (pool.chooseTxFromPool limit range).1.Subperm pool.sorted := by
  have hTaken : (pool.chooseTxFromPool limit range).1.Sublist
      ((range pool.txs.toList).map Prod.snd) :=
    (List.take_sublist limit _).map Prod.snd
  exact hTaken.subperm.trans
    (((hRange _).map Prod.snd).trans (sortByNonce_perm pool.toList).symm).subperm

theorem toList_delete_subperm (pool : TransactionPool) (tid : Int64) :
    (pool.delete tid).toList.Subperm pool.toList := by
  unfold toList delete
  cases hGet : pool.txs[tid]? with
  | none =>
    dsimp only
    rw [erase_of_getElem?_none hGet]
  | some tx =>
    have hPerm := (toList_perm_cons_erase hGet).map Prod.snd
    exact (List.sublist_cons_self _ _).subperm.trans hPerm.symm.subperm

/-- What is left are some transactions of the pool. -/
theorem sorted_removeTxsFromPool_subperm (txs : List Transaction) (pool : TransactionPool) :
    (removeTxsFromPool txs pool).sorted.Subperm pool.sorted := by
  have hToList : (removeTxsFromPool txs pool).toList.Subperm pool.toList := by
    unfold removeTxsFromPool
    induction txs generalizing pool with
    | nil => exact List.Subperm.refl _
    | cons tx txs ih => exact (ih (pool.delete tx.tid)).trans (toList_delete_subperm pool tx.tid)
  exact (sortByNonce_perm _).subperm.trans (hToList.trans (sortByNonce_perm _).symm.subperm)

end TransactionPool

/-! ## Nodes with a pool -/

/-- Slots by the clock of a node. -/
structure Clock where
  slotInterval : Int64
  initialTimestamp : Int64

def Clock.slotAt (clock : Clock) (now : Int64) : Int64 :=
  (now - clock.initialTimestamp) / clock.slotInterval

/-- The context in which `AddTransaction` validates. -/
def mempoolValidation (env : Env) (s : ChainState) (nextBlockIndex currentSlot : Int64) :
    Validation where
  E := env.E
  trustedRegistries := env.trustedRegistries
  ledger := s.ledger
  im := s.index.indexer env.E
  cs := openCommits s.commitStore nextBlockIndex
  currentSlot := currentSlot
  slotsPerDay := env.slotsPerDay
  isBlockValidation := false
  slotLeader := []
  stakeMap := s.stakes.stakeMap
  unstakeQueue := s.stakes.unstakeQueue
  slashedEvidence := s.stakes.slashedEvidence

structure PoolNode where
  node : Node
  pool : TransactionPool := {}
  /-- What the leader's loop has taken out for a slot and not yet dealt with. -/
  selection : Option (Int64 × List Transaction) := none
  /-- The slot in which pool or state last changed; no code reads it. -/
  changedAt : Int64 := 0

/-- The verdict of `AddBlock` on a block. -/
def Node.accepts (env : Env) (order : JournalOrder) (slotLeader : Bytes) (block : Block)
    (n : Node) : Bool :=
  if block.index = 0 then decide (validateGenesisBlock env block slotLeader)
  else
    match n.blockchain.getLatestBlock with
    | none => false
    | some latestBlock => (validateBlock env order n.state block latestBlock slotLeader).isOk

namespace PoolNode

/-- `AddTransaction`. -/
def addTransaction (env : Env) (clock : Clock) (now : Int64) (tx : Transaction) (n : PoolNode) :
    Go PoolNode :=
  if n.pool.txs.contains tx.tid then pure n
  else if clock.slotInterval = 0 then pure n
  else
    match n.node.blockchain.getLatestBlock with
    | none => throw .nilDereference
    | some latestBlock => do
      let currentSlot := clock.slotAt now
      let valid ← (mempoolValidation env n.node.state (latestBlock.index + 1)
        currentSlot).validateTransactions (n.pool.pendingList tx)
      if valid then pure { n with pool := n.pool.put tx, changedAt := currentSlot } else pure n

/-- `AddBlock`, received in a slot, with the clean-up of the pool. -/
def addBlock (env : Env) (slot : Int64) (order : JournalOrder) (slotLeader : Bytes) (block : Block)
    (n : PoolNode) : Go PoolNode := do
  let node ← n.node.addBlock env order slotLeader block
  if n.node.accepts env order slotLeader block then
    pure { n with
      node
      pool := n.pool.removeTxsFromPool block.transactions
      changedAt := slot }
  else pure { n with node }

/-- The start of a leader's slot: `ChooseTxFromPool`, and the revocations in front. -/
def select (slot : Int64) (limit : Nat)
    (range : List (Int64 × Transaction) → List (Int64 × Transaction)) (n : PoolNode) :
    Go PoolNode :=
  let (transactions, pool) := n.pool.chooseTxFromPool limit range
  match n.node.blockchain.getLatestBlock with
  | none => throw .nilDereference
  | some _ =>
    pure { n with
      pool
      selection := some
        (slot, generateAutoRevocations n.node.state.index slot transactions ++ transactions)
      changedAt := slot }

/-- The check of the slot that follows: if it is committed already, all transactions of the
selection go into the pool. Otherwise the leader goes on to build a block of them. -/
def requeue (n : PoolNode) : Go PoolNode :=
  match n.selection with
  | none => pure n
  | some (slot, transactions) =>
    if transactions.length = 0 then pure { n with selection := none }
    else
      match n.node.blockchain.getLatestBlock with
      | none => throw .nilDereference
      | some latestBlock =>
        if slot ≤ latestBlock.slotNumber then
          pure { n with
            pool := transactions.foldl TransactionPool.put n.pool
            selection := none
            changedAt := slot }
        else pure { n with selection := none }

end PoolNode

/-! ## Runs -/

inductive PoolEvent
  | addTransaction (now : Int64) (tx : Transaction)
  | addBlock (slot : Int64) (order : JournalOrder) (slotLeader : Bytes) (block : Block)
  | select (slot : Int64) (limit : Nat) (order : RangeOrder Int64 Transaction)
  | requeue

namespace PoolNode

variable (env : Env) (clock : Clock)

def handle (n : PoolNode) : PoolEvent → Go PoolNode
  | .addTransaction now tx => n.addTransaction env clock now tx
  | .addBlock slot order slotLeader block => n.addBlock env slot order slotLeader block
  | .select slot limit order => n.select slot limit (order.run 0)
  | .requeue => n.requeue

def run (events : List PoolEvent) (n : PoolNode) : Go PoolNode :=
  events.foldlM (fun n event => n.handle env clock event) n

/-- The pool passes in the context of the last change. -/
def Valid (n : PoolNode) : Prop :=
  ∀ latestBlock, n.node.blockchain.getLatestBlock = some latestBlock →
    ∃ sh, (mempoolValidation env n.node.state (latestBlock.index + 1) n.changedAt).run
      n.pool.sorted = .ok sh

end PoolNode

end Bdns.Network
