import Bdns.Blockchain.Independence
import Bdns.Network.Chain
import Bdns.Network.Pool
import Bdns.Safety.Presence

/-!
# The pool and the blocks made of it

The pool is validated as one list when a transaction is added. It stays valid as long as nothing
else touches pool or state. A block, a selection and a re-queue do, and none of them looks at
what is left in the pool; a selection also takes the transactions in the order of a loop over a
Go map, not in the order in which they were validated.
-/

namespace Bdns.Safety

open Lib Blockchain Network Index Validation

/-! ## Two contexts of validation -/

section Modes

variable {env : Env} {s : ChainState} {b : Block} {tx : Transaction}

/-- In the pool a transaction has a key. -/
theorem ownerKey_of_mempool {nextBlockIndex slot : Int64} {sh sh' : Shadow}
    (h : (mempoolValidation env s nextBlockIndex slot).validateTx sh tx = .ok sh') :
    tx.ownerKey.length ≠ 0 := by
  obtain ⟨domains, -, ⟨-, hCheck, -⟩ | ⟨hKey, -⟩⟩ := validateTx_eq_ok h
  · unfold checkOwnerless at hCheck
    obtain ⟨_, -, hCheck⟩ := bind_eq_ok.mp hCheck
    obtain ⟨_, hMode, -⟩ := bind_eq_ok.mp hCheck
    exact absurd (require_eq_ok.mp hMode) (by simp [mempoolValidation])
  · exact hKey

/-- For a transaction with a key the two contexts are the same. -/
theorem validateTx_mempool_eq (hKey : tx.ownerKey.length ≠ 0) (sh : Shadow) :
    (mempoolValidation env s b.index b.slotNumber).validateTx sh tx =
      (blockValidation env s b).validateTx sh tx := by
  unfold validateTx
  simp only [if_neg hKey]
  rfl

/-- What passes in the pool passes in a block of the same slot on the same state. -/
theorem run_blockValidation {txs : List Transaction} {sh : Shadow}
    (h : (mempoolValidation env s b.index b.slotNumber).run txs = .ok sh) :
    (blockValidation env s b).run txs = .ok sh := by
  obtain ⟨sh', hRun, rfl⟩ := foldlM_simulation (fun _ sh sh' => sh = sh')
    (fun before tx _ sh _ sh₁ hEq hStep => by
      subst hEq
      exact ⟨sh₁, (validateTx_mempool_eq (ownerKey_of_mempool hStep) sh).symm.trans hStep, rfl⟩)
    rfl h
  exact hRun

end Modes

/-! ## Selections -/

def pairEnv : Env :=
  { StandIn.registryEnv with trustedRegistries := [utf8 "registry", utf8 "second"] }

/-- A COMMIT of one of them. -/
def pairCommit (key : Bytes) (tid : Int64) (nonce : UInt64) (salt : Bytes) : Transaction :=
  Blockchain.StandIn.signAs key
    { tid, type := .commit, nonce, ownerKey := key, fee := 1,
      commitHash := pairEnv.E.sha256 (commitPreimage (utf8 "a.bdns") salt key) }

/-- The pool holds a COMMIT of each. -/
def pairPool : TransactionPool :=
  (TransactionPool.put {} (pairCommit (utf8 "registry") 1 0 [1])).put
    (pairCommit (utf8 "second") 2 0 [1])

def pairBlock : Block :=
  { index := 1, slotNumber := 1, slotLeader := utf8 "registry", transactions := [], prevHash := [] }

theorem sorted_pairPool :
    pairPool.sorted = [pairCommit (utf8 "registry") 1 0 [1], pairCommit (utf8 "second") 2 0 [1]] := by
  decide +kernel

/-- Two COMMITs of one registry. -/
def queuedPool : TransactionPool :=
  (TransactionPool.put {} (StandIn.commitTx 1 0 [1])).put (StandIn.commitTx 2 1 [2])

/-- The block that the leader of slot 1 makes of a pool. -/
def queuedBlock : Block :=
  StandIn.extend StandIn.registryEnv (StandIn.leader (utf8 "registry") 1) 1
    (queuedPool.chooseTxFromPool 10 List.reverse).1 (genesisState StandIn.registryEnv)
    StandIn.registryGenesis

namespace Pool

variable {env : Env} {clock : Clock} {n n' : PoolNode}

theorem valid_of_empty (h : n.pool.txs = ∅) : n.Valid env := by
  intro latestBlock _
  have hNil : n.pool.sorted = [] := by
    unfold TransactionPool.sorted TransactionPool.toList
    rw [h]
    rfl
  rw [hNil]
  exact ⟨{}, rfl⟩

/-- `AddTransaction` puts the transaction into the pool, in a context in which the whole passes, or
does nothing. -/
theorem addTransaction_eq_ok {now : Int64} {tx : Transaction}
    (h : n.addTransaction env clock now tx = .ok n') :
    n' = n ∨ ∃ latestBlock sh, n.node.blockchain.getLatestBlock = some latestBlock ∧
      n.pool.txs[tx.tid]? = none ∧
      (mempoolValidation env n.node.state (latestBlock.index + 1) (clock.slotAt now)).run
        (n.pool.pendingList tx) = .ok sh ∧
      n' = { n with pool := n.pool.put tx, changedAt := clock.slotAt now } := by
  unfold PoolNode.addTransaction at h
  split at h
  · exact .inl (pure_eq_ok.mp h).symm
  · rename_i hNew
    split at h
    · exact .inl (pure_eq_ok.mp h).symm
    · split at h
      · exact absurd h (by simp)
      · rename_i latestBlock hLatest
        obtain ⟨valid, hValid, h⟩ := bind_eq_ok.mp h
        cases valid with
        | false => exact .inl (pure_eq_ok.mp h).symm
        | true =>
          obtain ⟨sh, hRun⟩ := validateTransactions_eq_true.mp hValid
          refine .inr ⟨latestBlock, sh, hLatest, ?_, hRun, (pure_eq_ok.mp h).symm⟩
          rw [Std.ExtTreeMap.contains_eq_isSome_getElem?, Bool.not_eq_true,
            Option.isSome_eq_false_iff, Option.isNone_iff_eq_none] at hNew
          exact hNew

/-- A block that is not accepted changes nothing. -/
theorem addBlock_of_not_accepts {order : JournalOrder} {slotLeader : Bytes} {block : Block}
    {node node' : Node} (hNot : node.accepts env order slotLeader block = false)
    (h : node.addBlock env order slotLeader block = .ok node') : node' = node := by
  unfold Node.accepts at hNot
  unfold Node.addBlock at h
  split at h
  · rename_i hIndex
    rw [if_pos hIndex] at hNot
    rw [if_neg (of_decide_eq_false hNot)] at h
    exact (pure_eq_ok.mp h).symm
  · rename_i hIndex
    rw [if_neg hIndex] at hNot
    split at h
    · exact absurd h (by simp)
    · rename_i latestBlock hLatest
      rw [hLatest] at hNot
      dsimp only at hNot
      split at h
      · exact absurd h (by simp)
      · exact (pure_eq_ok.mp h).symm
      · rename_i staged hAccepted
        rw [hAccepted] at hNot
        exact absurd hNot (by simp [Except.isOk, Except.toBool])

/-- The leader finds its slot committed and puts its selection back. -/
def Requeues (n : PoolNode) : Prop :=
  ∃ slot transactions latestBlock, n.selection = some (slot, transactions) ∧ transactions ≠ [] ∧
    n.node.blockchain.getLatestBlock = some latestBlock ∧ slot ≤ latestBlock.slotNumber

/-- An accepted block leaves nothing in the pool. So does a selection, or it is made in the slot of
the last change from a pool in which no two transactions meet. Nothing is put back. -/
def TidyStep (env : Env) (n n' : PoolNode) : PoolEvent → Prop
  | .addTransaction _ _ => True
  | .addBlock _ order slotLeader block =>
    n.node.accepts env order slotLeader block = true → n'.pool.txs = ∅
  | .select slot _ _ =>
    n'.pool.txs = ∅ ∨ slot = n.changedAt ∧ Independent env.E n.pool.sorted
  | .requeue => ¬ Requeues n

/-- Every event of a run is tidy. -/
def Tidy (env : Env) (clock : Clock) : List PoolEvent → PoolNode → Prop
  | [], _ => True
  | event :: events, n => ∀ n', n.handle env clock event = .ok n' →
      TidyStep env n n' event ∧ Tidy env clock events n'

/-- A selection only takes from the pool. -/
theorem select_eq_ok {slot : Int64} {limit : Nat}
    {range : List (Int64 × Transaction) → List (Int64 × Transaction)}
    (h : n.select slot limit range = .ok n') :
    n'.node = n.node ∧ n'.pool = (n.pool.chooseTxFromPool limit range).2 ∧ n'.changedAt = slot := by
  unfold PoolNode.select at h
  dsimp only at h
  split at h
  · exact absurd h (by simp)
  · obtain rfl := pure_eq_ok.mp h
    exact ⟨rfl, rfl, rfl⟩

theorem requeue_of_not_requeues (hNot : ¬ Requeues n) (h : n.requeue = .ok n') :
    n'.node = n.node ∧ n'.pool = n.pool ∧ n'.changedAt = n.changedAt := by
  unfold PoolNode.requeue at h
  split at h
  · obtain rfl := pure_eq_ok.mp h
    exact ⟨rfl, rfl, rfl⟩
  · rename_i slot transactions hSelection
    split at h
    · obtain rfl := pure_eq_ok.mp h
      exact ⟨rfl, rfl, rfl⟩
    · rename_i hSome
      split at h
      · exact absurd h (by simp)
      · rename_i latestBlock hLatest
        split at h
        · rename_i hSlot
          have hNonempty : transactions ≠ [] := fun hNil => hSome (by simp [hNil])
          exact absurd ⟨slot, transactions, latestBlock, hSelection, hNonempty, hLatest, hSlot⟩ hNot
        · obtain rfl := pure_eq_ok.mp h
          exact ⟨rfl, rfl, rfl⟩

/-- One event. -/
theorem valid_step {event : PoolEvent} (hValid : n.Valid env)
    (h : n.handle env clock event = .ok n') (hTidy : TidyStep env n n' event) : n'.Valid env := by
  cases event with
  | addTransaction now tx =>
    obtain rfl | ⟨latestBlock, sh, hLatest, hNew, hRun, rfl⟩ := addTransaction_eq_ok h
    · exact hValid
    · intro latestBlock' hLatest'
      obtain rfl := Option.some.inj (hLatest.symm.trans hLatest')
      exact ⟨sh, (TransactionPool.sorted_put hNew).symm ▸ hRun⟩
  | addBlock slot order slotLeader block =>
    change (n.node.addBlock env order slotLeader block >>= _) = .ok n' at h
    obtain ⟨node, hNode, h⟩ := bind_eq_ok.mp h
    split at h
    · rename_i hAccepts
      exact valid_of_empty (hTidy hAccepts)
    · rename_i hAccepts
      obtain rfl := addBlock_of_not_accepts (Bool.not_eq_true _ ▸ hAccepts) hNode
      obtain rfl := pure_eq_ok.mp h
      exact hValid
  | select slot limit order =>
    rcases hTidy with hEmpty | ⟨rfl, hIndependent⟩
    · exact valid_of_empty hEmpty
    · obtain ⟨hNode, hPool, hSlot⟩ := select_eq_ok h
      intro latestBlock hLatest
      rw [hNode] at hLatest
      rw [hNode, hPool, hSlot]
      exact run_of_subperm hIndependent
        (TransactionPool.sorted_removeTxsFromPool_subperm _ n.pool) (hValid latestBlock hLatest)
  | requeue =>
    obtain ⟨hNode, hPool, hSlot⟩ := requeue_of_not_requeues hTidy h
    unfold PoolNode.Valid at hValid ⊢
    rw [hNode, hPool, hSlot]
    exact hValid

/-- A whole run. -/
theorem valid_of_run {events : List PoolEvent} (hValid : n.Valid env)
    (hTidy : Tidy env clock events n) (h : n.run env clock events = .ok n') : n'.Valid env := by
  induction events generalizing n with
  | nil =>
    obtain rfl := pure_eq_ok.mp h
    exact hValid
  | cons event events ih =>
    rw [PoolNode.run, List.foldlM_cons] at h
    obtain ⟨mid, hEvent, hRest⟩ := bind_eq_ok.mp h
    obtain ⟨hStep, hTidy⟩ := hTidy mid hEvent
    exact ih (valid_step hValid hEvent hStep) hTidy hRest

/-- A valid pool takes up every transaction that passes on its own and meets none in the pool. -/
theorem addTransaction_of_valid {now : Int64} {tx : Transaction} {latestBlock : Block}
    (hValid : n.Valid env) (hClock : clock.slotInterval ≠ 0)
    (hSlot : clock.slotAt now = n.changedAt)
    (hLatest : n.node.blockchain.getLatestBlock = some latestBlock)
    (hNew : n.pool.txs[tx.tid]? = none) (hProof : tx.type ≠ .equivocationProof)
    (hApart : ∀ other ∈ n.pool.toList, other.type ≠ .equivocationProof ∧ Apart env.E other tx)
    (hAlone : ∃ sh, (mempoolValidation env n.node.state (latestBlock.index + 1)
      n.changedAt).run [tx] = .ok sh) :
    n.addTransaction env clock now tx =
      .ok { n with pool := n.pool.put tx, changedAt := clock.slotAt now } := by
  obtain ⟨before, after, hPending, hSorted⟩ := TransactionPool.pendingList_split n.pool tx
  obtain ⟨sh, hPool⟩ := hValid latestBlock hLatest
  rw [hSorted] at hPool
  obtain ⟨sh₁, hAlone⟩ := hAlone
  have hMem : ∀ other ∈ before ++ after, other ∈ n.pool.toList := fun other hOther =>
    TransactionPool.mem_sorted.mp (hSorted ▸ hOther)
  have hPasses := validateTransactions_eq_true.mpr (run_insert hProof
    (fun other hOther => hApart other (hMem other hOther)) hPool
    ⟨sh₁, run_singleton.mp hAlone⟩)
  rw [← hPending, ← hSlot] at hPasses
  unfold PoolNode.addTransaction
  rw [Std.ExtTreeMap.contains_eq_isSome_getElem?, hNew, if_neg (by simp), if_neg hClock, hLatest]
  dsimp only
  rw [hPasses]
  rfl

end Pool

namespace Pool

/-- Slots of a day, from the epoch on. -/
def dayClock : Clock := ⟨86400, 0⟩

def start : PoolNode := { node := StandIn.genesis pairEnv (utf8 "registry") }

/-- The first registry's block of slot 1, made of one COMMIT. -/
def commitBlock (tid : Int64) (salt : Bytes) : Block :=
  StandIn.sealed pairEnv (StandIn.leader (utf8 "registry") 1) 1
    [pairCommit (utf8 "registry") tid 0 salt] start.node

/-- A COMMIT is added to the pool, and comes back in a block. -/
def commitEvents : List PoolEvent :=
  [.addTransaction 86400 (pairCommit (utf8 "registry") 10 0 [1]),
    .addBlock 1 (.ascending _ _) (utf8 "registry") (commitBlock 10 [1])]

def afterCommit : PoolNode := okOr (start.run pairEnv dayClock commitEvents) start

theorem run_commitEvents : start.run pairEnv dayClock commitEvents = .ok afterCommit :=
  eq_ok_okOr (by decide +kernel) _

theorem txs_afterCommit : afterCommit.pool.txs = ∅ :=
  Std.ExtTreeMap.isEmpty_iff.mp (by decide +kernel)

theorem tidy_commitEvents : Tidy pairEnv dayClock commitEvents start := by
  intro n hn
  refine ⟨trivial, fun n' hn' => ⟨fun _ => ?_, trivial⟩⟩
  have hRun : start.run pairEnv dayClock commitEvents = .ok n' := by
    simp [PoolNode.run, commitEvents, hn, hn']
  rw [← Except.ok.inj (run_commitEvents.symm.trans hRun)]
  exact txs_afterCommit

end Pool

namespace Pool

/-- The same with another COMMIT of the registry in the block. -/
def leftoverEvents : List PoolEvent :=
  [.addTransaction 86400 (pairCommit (utf8 "registry") 10 0 [1]),
    .addBlock 1 (.ascending _ _) (utf8 "registry") (commitBlock 20 [2])]

def afterLeftover : PoolNode := okOr (start.run pairEnv dayClock leftoverEvents) start

end Pool

end Bdns.Safety
