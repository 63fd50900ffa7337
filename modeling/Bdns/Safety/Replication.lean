import Bdns.Safety.Replay
import Bdns.Safety.Rerooting

/-!
# Replicas

Nodes that hold the same blocks hold the same state, as far as any query and any later block can
tell. Their states are not equal: the loops over a journal have an order of their own at each node,
so the trees of the indexes have different shapes, and a leader flushes the journal of its own block
once where a validator flushes it twice, which lists a domain twice for its purge slot. What they
share is `Replica`. A block stages the same copies over two replicas (`Replica.staged_eq`), the
flushes bring the same nodes into both indexes (`SameIndex.commit`, `SameIndex.commit_twice`), and
so every replay of one chain gives a replica (`replica_of_replays`).
-/

namespace Bdns.Index

open Lib Blockchain

/-- Trees with the same nodes list them in the same order. -/
theorem AVLTree.inOrder_eq_of_search {t t' : AVLTree} (h : ∀ key, t.search key = t'.search key) :
    t.root.inOrder = t'.root.inOrder := by
  have hMem : ∀ t t' : AVLTree, (∀ key, t.search key = t'.search key) →
      ∀ e ∈ t.root.inOrder, e ∈ t'.root.inOrder := by
    intro t t' h e he
    exact t'.mem_of_search ((h e.1).symm.trans (t.search_of_mem he))
  have hNodup : ∀ t : AVLTree, t.root.inOrder.Nodup := by
    intro t
    refine t.ordered.imp ?_
    rintro a b hLt rfl
    have hSelf : compare a.1 a.1 = .eq := Std.ReflCmp.compare_self
    rw [hSelf] at hLt
    cases hLt
  have hPerm : t.root.inOrder.Perm t'.root.inOrder := by
    refine (List.perm_ext_iff_of_nodup (hNodup t) (hNodup t')).mpr fun e => ⟨?_, ?_⟩
    · exact hMem t t' h e
    · exact hMem t' t (fun key => (h key).symm) e
  refine hPerm.eq_of_pairwise ?_ t.ordered t'.ordered
  intro a b _ _ hab hba
  rw [Std.OrientedCmp.gt_of_lt hab] at hba
  cases hba

end Bdns.Index

namespace Bdns.Safety

open Lib Blockchain Network Index

/-! ## Indexes with the same nodes -/

/-- Two indexes with the same nodes, the same spent transactions and the same domains for every
purge slot, these perhaps listed more than once. -/
structure SameIndex (im im' : IndexManager) : Prop where
  search : ∀ key, im.tree.search key = im'.tree.search key
  isSpent : ∀ txID, im.isSpent txID = im'.isSpent txID
  purge : ∀ slot t, t ∈ im.purgeIndex slot ↔ t ∈ im'.purgeIndex slot

namespace SameIndex

variable {E : External} {im im' im'' : IndexManager} {o : IndexOverlay}

theorem refl (im : IndexManager) : SameIndex im im :=
  ⟨fun _ => rfl, fun _ => rfl, fun _ _ => Iff.rfl⟩

theorem symm (h : SameIndex im im') : SameIndex im' im :=
  ⟨fun key => (h.search key).symm, fun txID => (h.isSpent txID).symm,
    fun slot t => (h.purge slot t).symm⟩

theorem trans (h : SameIndex im im') (h' : SameIndex im' im'') : SameIndex im im'' :=
  ⟨fun key => (h.search key).trans (h'.search key),
    fun txID => (h.isSpent txID).trans (h'.isSpent txID),
    fun slot t => (h.purge slot t).trans (h'.purge slot t)⟩

/-- Where no number stands under two keys, they answer alike. -/
theorem sameAnswers (h : SameIndex im im')
    (hOne : ∀ key key' node node', im.tree.search key = some node →
      im.tree.search key' = some node' → node.1.tid = node'.1.tid → key = key') :
    SameAnswers E im im' where
  getDomain d := by rw [IndexManager.getDomain_eq, IndexManager.getDomain_eq, h.search]
  getOwner d := by rw [IndexManager.getOwner, IndexManager.getOwner, h.search]
  getListPrice d := by rw [IndexManager.getListPrice, IndexManager.getListPrice, h.search]
  getTxByID txID := (AVLTree.findNodeByTxID_congr h.search hOne txID).symm
  isSpent txID := (h.isSpent txID).symm

/-- The domain names of a journal have hashes of their own. -/
theorem apart_of_keysIn {names : Set Bytes} (hKeys : KeysIn names o)
    (hInj : Set.InjOn E.sha256 names) :
    ∀ d ∈ o.journal, ∀ d' ∈ o.journal, hashDomain E d' = hashDomain E d → d' = d := by
  intro d hd d' hd' hEq
  exact hInj (hKeys d' hd') (hKeys d hd) (hexEncode_injective hEq)

variable {range range' : List (Bytes × OverlayEntry) → List (Bytes × OverlayEntry)}

/-- A journal flushed into both, in any two orders. -/
theorem commit (h : SameIndex im im') (hRange : ∀ xs, (range xs).Perm xs)
    (hRange' : ∀ xs, (range' xs).Perm xs)
    (hApart : ∀ d ∈ o.journal, ∀ d' ∈ o.journal, hashDomain E d' = hashDomain E d → d' = d) :
    SameIndex (o.commit E range im) (o.commit E range' im') where
  search := IndexOverlay.search_commit_congr o hRange hRange' h.search hApart
  isSpent txID := by
    rw [IndexOverlay.isSpent_commit, IndexOverlay.isSpent_commit, h.isSpent]
  purge slot t := by
    rw [mem_purgeIndex_commit o hRange, mem_purgeIndex_commit o hRange', h.purge]

/-- A journal flushed once or twice. -/
theorem commit_twice (hRange : ∀ xs, (range xs).Perm xs) (hRange' : ∀ xs, (range' xs).Perm xs)
    (hApart : ∀ d ∈ o.journal, ∀ d' ∈ o.journal, hashDomain E d' = hashDomain E d → d' = d)
    (im : IndexManager) :
    SameIndex (o.commit E range' (o.commit E range im)) (o.commit E range im) where
  search key := by
    by_cases hKey : ∃ d ∈ o.journal, hashDomain E d = key
    · obtain ⟨d, hd, rfl⟩ := hKey
      exact search_commit_twice hRange hRange' im (hApart d hd)
    · exact IndexOverlay.search_commit_of_ne o hRange' _ fun d hd hEq => hKey ⟨d, hd, hEq⟩
  isSpent txID := by
    rw [IndexOverlay.isSpent_commit, IndexOverlay.isSpent_commit, Bool.or_assoc, Bool.or_self]
  purge slot t := by
    rw [mem_purgeIndex_commit o hRange', mem_purgeIndex_commit o hRange, or_assoc, or_self]

/-- The hash of a journal over both. -/
theorem getIndexHash_reroot (h : SameIndex o.real im) :
    (reroot im o).getIndexHash E = o.getIndexHash E := by
  have hRecords : getAllRecords im.tree = getAllRecords o.real.tree := by
    unfold getAllRecords
    rw [AVLTree.inOrder_eq_of_search h.search]
  unfold IndexOverlay.getIndexHash IndexOverlay.merged reroot
  dsimp only
  rw [hRecords]

end SameIndex

/-! ## States of replicas -/

/-- Two states that no query and no block can tell apart. -/
structure Replica (s s' : ChainState) : Prop where
  ledger : s.ledger = s'.ledger
  commitStore : s.commitStore = s'.commitStore
  stakes : s.stakes = s'.stakes
  index : SameIndex s.index s'.index

/-- Transactions that name their domains: those that write to the index and share a number are of
one domain, and the hash tells the names apart. -/
structure Distinct (E : External) (pool : Transaction → Prop) : Prop where
  numbers : ∀ tx tx', pool tx → pool tx' → Writes tx → Writes tx' → tx.tid = tx'.tid →
    tx.domainName = tx'.domainName
  names : Set.InjOn E.sha256 {d | ∃ tx, pool tx ∧ tx.domainName = d}

theorem Distinct.mono {E : External} {pool pool' : Transaction → Prop} (h : Distinct E pool')
    (hPool : ∀ tx, pool tx → pool' tx) : Distinct E pool where
  numbers tx tx' hTx hTx' := h.numbers tx tx' (hPool tx hTx) (hPool tx' hTx')
  names := by
    refine h.names.mono ?_
    rintro d ⟨tx, hTx, rfl⟩
    exact ⟨tx, hPool tx hTx, rfl⟩

section Staging

variable {env : Env} {pool : Transaction → Prop} {s s' : ChainState} {txs : List Transaction}

/-- What stands under a key comes from a transaction of the pool. -/
theorem IndexFrom.standsUnder (h : IndexFrom env pool s.index) (hPool : ∀ tx ∈ txs, pool tx)
    {key : Bytes} {t : Transaction} (hStands : StandsUnder env.E s.index txs key t) :
    ∃ tx, pool tx ∧ Writes tx ∧ hashDomain env.E tx.domainName = key ∧ tx.tid = t.tid := by
  rcases hStands with ⟨m, hSearch⟩ | ⟨hMem, hWrites, hKey⟩
  · obtain ⟨tx, hTx, hWrites, hKey, hStored⟩ := h.nodes key _ hSearch
    exact ⟨tx, hTx, hWrites, hKey, hStored.tid.symm⟩
  · exact ⟨t, hPool t hMem, hWrites, hKey, rfl⟩

theorem Distinct.numbersApart (h : Distinct env.E pool) (hIndex : IndexFrom env pool s.index)
    (hPool : ∀ tx ∈ txs, pool tx) : NumbersApart env.E s.index txs := by
  intro key key' t t' hStands hStands' hTid
  obtain ⟨tx, hTx, hWrites, rfl, hSame⟩ := hIndex.standsUnder hPool hStands
  obtain ⟨tx', hTx', hWrites', rfl, hSame'⟩ := hIndex.standsUnder hPool hStands'
  have hNumber : tx.tid = tx'.tid := hSame.trans (hTid.trans hSame'.symm)
  rw [h.numbers tx tx' hTx hTx' hWrites hWrites' hNumber]

theorem Distinct.name_mem (hPool : ∀ tx ∈ txs, pool tx) :
    ∀ tx ∈ txs, tx.domainName ∈ {d | ∃ tx, pool tx ∧ tx.domainName = d} :=
  fun tx hTx => ⟨tx, hPool tx hTx, rfl⟩

theorem Replica.sameAnswers (h : Replica s s') (hDistinct : Distinct env.E pool)
    (hIndex : IndexFrom env pool s.index) : SameAnswers env.E s.index s'.index := by
  have hApart : NumbersApart env.E s.index [] :=
    hDistinct.numbersApart hIndex fun tx hTx => absurd hTx List.not_mem_nil
  apply h.index.sameAnswers
  intro key key' node node' hNode hNode' hTid
  exact hApart key key' node.1 node'.1 (.inl ⟨node.2, hNode⟩) (.inl ⟨node'.2, hNode'⟩) hTid

/-- The domains of a block over both states, in any two orders. -/
theorem Replica.domainPass_eq (h : Replica s s') (hDistinct : Distinct env.E pool)
    (hIndex : IndexFrom env pool s.index) (hPool : ∀ tx ∈ txs, pool tx)
    (order order' : JournalOrder) (slot blockIndex : Int64) (ledger : BalanceLedger)
    (cs : CommitOverlay) :
    domainPass env order' slot blockIndex txs ⟨ledger, .newIndexOverlay s'.index, cs⟩ =
      (domainPass env order slot blockIndex txs ⟨ledger, .newIndexOverlay s.index, cs⟩).map
        (rerootState s'.index) := by
  have hAnswers := h.sameAnswers hDistinct hIndex
  have hStart : rerootState s'.index ⟨ledger, .newIndexOverlay s.index, cs⟩ =
      ⟨ledger, .newIndexOverlay s'.index, cs⟩ := rfl
  rw [← hStart, domainPass_reroot order' slot blockIndex txs hAnswers,
    domainPass_apart (hDistinct.numbersApart hIndex hPool) hDistinct.names
      (Distinct.name_mem hPool) order' order]

variable {b : Block} {order order' : JournalOrder} {staged staged' : Staged}

def rerootStaged (im : IndexManager) (staged : Staged) : Staged :=
  { staged with im := reroot im staged.im }

/-- A block stages the same copies over both states. -/
theorem Replica.staged_eq (h : Replica s s') (hDistinct : Distinct env.E pool)
    (hIndex : IndexFrom env pool s.index) (hPool : ∀ tx ∈ b.transactions, pool tx)
    (hStages : Stages env order s b staged) (hStages' : Stages env order' s' b staged') :
    staged' = rerootStaged s'.index staged := by
  obtain ⟨⟨ledger, st, hPass, hDomain, hLedger, hIm, hCs⟩, hStakes⟩ := hStages
  obtain ⟨⟨ledger', st', hPass', hDomain', hLedger', hIm', hCs'⟩, hStakes'⟩ := hStages'
  rw [← h.ledger] at hPass'
  obtain rfl : ledger = ledger' := Except.ok.inj (hPass.symm.trans hPass')
  rw [← h.commitStore, h.domainPass_eq hDistinct hIndex hPool order order', hDomain] at hDomain'
  obtain rfl : rerootState s'.index st = st' := Except.ok.inj hDomain'
  rw [← h.stakes] at hStakes'
  have hSame : staged.stakes = staged'.stakes := Except.ok.inj (hStakes.symm.trans hStakes')
  obtain ⟨ledger₁, im₁, cs₁, stakes₁⟩ := staged
  obtain ⟨ledger₂, im₂, cs₂, stakes₂⟩ := staged'
  dsimp only at hLedger hIm hCs hSame hLedger' hIm' hCs'
  subst hLedger hIm hCs hSame hLedger' hIm' hCs'
  rfl

end Staging

/-! ## The state after a block -/

/-- The ways in which a node takes over what a block staged. -/
inductive Installs (env : Env) (b : Block) (staged : Staged) (s : ChainState) : ChainState → Prop
  | once (range : List (Bytes × OverlayEntry) → List (Bytes × OverlayEntry))
      (perm : ∀ xs, (range xs).Perm xs) : Installs env b staged s (install env range staged s)
  | twice (order : JournalOrder) :
      Installs env b staged s (installValidated env order b.transactions staged s)

section Installing

variable {env : Env} {pool : Transaction → Prop} {s s' next next' : ChainState} {b : Block}
  {order order' : JournalOrder} {staged staged' : Staged}

theorem Installs.indexFrom (h : Installs env b staged s next) (hIndex : IndexFrom env pool s.index)
    (hStages : Stages env order s b staged) (hPool : ∀ tx ∈ b.transactions, pool tx) :
    IndexFrom env pool next.index := by
  have hJournal := (journalFrom_of_stages hStages).1.mono hPool
  cases h with
  | once range perm => exact hIndex.commit hJournal perm
  | twice order =>
    exact (hIndex.commit hJournal (order.perm _)).commit hJournal (order.perm _)

/-- However a node takes a block over, its index has the nodes of one flush. -/
theorem Installs.sameIndex (h : Installs env b staged s next)
    (hApart : ∀ d ∈ staged.im.journal, ∀ d' ∈ staged.im.journal,
      hashDomain env.E d' = hashDomain env.E d → d' = d) :
    SameIndex next.index (staged.im.commit env.E id s.index) := by
  cases h with
  | once range perm => exact (SameIndex.refl s.index).commit perm (fun _ => .refl _) hApart
  | twice order =>
    have hTwice : SameIndex (installValidated env order b.transactions staged s).index
        (staged.im.commit env.E (order.run b.transactions.length) s.index) :=
      .commit_twice (order.perm _) (order.perm _) hApart s.index
    exact hTwice.trans ((SameIndex.refl s.index).commit (order.perm _) (fun _ => .refl _) hApart)

/-- Replicas that take over one block are replicas. -/
theorem Replica.installs (h : Replica s s') (hDistinct : Distinct env.E pool)
    (hIndex : IndexFrom env pool s.index) (hPool : ∀ tx ∈ b.transactions, pool tx)
    (hStages : Stages env order s b staged) (hStages' : Stages env order' s' b staged')
    (hNext : Installs env b staged s next) (hNext' : Installs env b staged' s' next') :
    Replica next next' := by
  obtain rfl := h.staged_eq hDistinct hIndex hPool hStages hStages'
  have hKeys := keysIn_of_stages hStages (Distinct.name_mem hPool)
  have hApart := SameIndex.apart_of_keysIn hKeys hDistinct.names
  have hOnce := (h.index.commit (fun xs => .refl xs) (fun xs => .refl xs) hApart :
    SameIndex (staged.im.commit env.E id s.index) (staged.im.commit env.E id s'.index))
  have hIndexes : SameIndex next.index next'.index :=
    (hNext.sameIndex hApart).trans (hOnce.trans (hNext'.sameIndex hApart).symm)
  have hParts : ∀ {staged : Staged} {s next : ChainState}, Installs env b staged s next →
      next.ledger = staged.ledger ∧ next.commitStore = staged.cs.commit s.commitStore ∧
        next.stakes = staged.stakes := by
    intro staged s next hInstalls
    cases hInstalls <;> exact ⟨rfl, rfl, rfl⟩
  obtain ⟨hLedger, hCommits, hStakes⟩ := hParts hNext
  obtain ⟨hLedger', hCommits', hStakes'⟩ := hParts hNext'
  refine ⟨hLedger.trans hLedger'.symm, ?_, hStakes.trans hStakes'.symm, hIndexes⟩
  rw [hCommits, hCommits', h.commitStore]
  rfl

end Installing

/-! ## Replays -/

section Replays

variable {env : Env} {blocks : List Block} {b : Block} {s s' : ChainState}

theorem ne_nil_of_replays (h : Replays env blocks s) : blocks ≠ [] := by
  rintro rfl
  exact not_replays_nil h

/-- The last block of a replay. -/
theorem replays_concat (h : Replays env (blocks ++ [b]) s) (hBlocks : blocks ≠ []) :
    ∃ s₀ order staged, Replays env blocks s₀ ∧ Stages env order s₀ b staged ∧
      Installs env b staged s₀ s := by
  generalize hAll : blocks ++ [b] = all at h
  cases h with
  | genesis block =>
    have hLength := congrArg List.length hAll
    simp only [List.length_append, List.length_singleton] at hLength
    exact absurd (List.length_eq_zero_iff.mp (by omega)) hBlocks
  | @led blocks' s₀ b' order staged before stages range perm =>
    obtain ⟨rfl, hLast⟩ := List.append_inj' hAll rfl
    obtain rfl := List.singleton_inj.mp hLast
    exact ⟨s₀, order, staged, before, stages, .once range perm⟩
  | @validated blocks' s₀ b' order staged before stages =>
    obtain ⟨rfl, hLast⟩ := List.append_inj' hAll rfl
    obtain rfl := List.singleton_inj.mp hLast
    exact ⟨s₀, order, staged, before, stages, .twice order⟩

/-- A replay of the genesis block alone. -/
theorem replays_singleton {block : Block} (h : Replays env [block] s) : s = genesisState env := by
  generalize hAll : [block] = all at h
  cases h with
  | genesis block => rfl
  | @led blocks' _ b' _ _ before =>
    obtain ⟨rfl, -⟩ := List.append_inj' (show [] ++ [block] = blocks' ++ [b'] from hAll) rfl
    exact absurd before not_replays_nil
  | @validated blocks' _ b' _ _ before =>
    obtain ⟨rfl, -⟩ := List.append_inj' (show [] ++ [block] = blocks' ++ [b'] from hAll) rfl
    exact absurd before not_replays_nil

theorem indexFrom_of_replays (h : Replays env blocks s) :
    IndexFrom env (· ∈ acceptedTxs blocks) s.index := by
  induction blocks using List.reverseRecOn generalizing s with
  | nil => exact absurd h not_replays_nil
  | append_singleton blocks b ih =>
    by_cases hBlocks : blocks = []
    · subst hBlocks
      rw [replays_singleton h]
      exact .empty
    · obtain ⟨s₀, order, staged, hBefore, hStages, hInstalls⟩ := replays_concat h hBlocks
      rw [acceptedTxs_concat hBlocks]
      have hIndex := (ih hBefore).mono fun tx hTx => List.mem_append_left b.transactions hTx
      exact hInstalls.indexFrom hIndex hStages fun tx hTx => List.mem_append_right _ hTx

/-- Two replays of one chain give replicas. -/
theorem replica_of_replays (hDistinct : Distinct env.E (· ∈ acceptedTxs blocks))
    (h : Replays env blocks s) (h' : Replays env blocks s') : Replica s s' := by
  induction blocks using List.reverseRecOn generalizing s s' with
  | nil => exact absurd h not_replays_nil
  | append_singleton blocks b ih =>
    by_cases hBlocks : blocks = []
    · subst hBlocks
      rw [replays_singleton h, replays_singleton h']
      exact ⟨rfl, rfl, rfl, .refl _⟩
    · obtain ⟨s₀, order, staged, hBefore, hStages, hInstalls⟩ := replays_concat h hBlocks
      obtain ⟨s₀', order', staged', hBefore', hStages', hInstalls'⟩ := replays_concat h' hBlocks
      rw [acceptedTxs_concat hBlocks] at hDistinct
      have hEarlier : ∀ tx, tx ∈ acceptedTxs blocks → tx ∈ acceptedTxs blocks ++ b.transactions :=
        fun tx hTx => List.mem_append_left _ hTx
      have hReplica := ih (hDistinct.mono hEarlier) hBefore hBefore'
      have hIndex := (indexFrom_of_replays hBefore).mono hEarlier
      exact hReplica.installs hDistinct hIndex (fun tx hTx => List.mem_append_right _ hTx) hStages
        hStages' hInstalls hInstalls'

end Replays

/-! ## The verdict on a block -/

/-- A step that is the same on both sides, before results that differ by a map. -/
theorem bind_eq_map_bind {ε α β γ : Type} {x : Except ε α} {f : α → Except ε β}
    {g : α → Except ε γ} {φ : β → γ} (hNext : ∀ a, x = .ok a → g a = (f a).map φ) :
    x >>= g = (x >>= f).map φ := by
  cases x with
  | error e => rfl
  | ok a => exact hNext a rfl

theorem purgesMet_congr {purgeable purgeable' : List Transaction}
    (h : ∀ t, t ∈ purgeable ↔ t ∈ purgeable') (txs : List Transaction) :
    purgesMet purgeable txs = purgesMet purgeable' txs := by
  unfold purgesMet
  rw [Bool.eq_iff_iff, List.all_eq_true, List.all_eq_true]
  exact forall_congr' fun t => by rw [h t]

section Verdict

variable {env : Env} {pool : Transaction → Prop} {s s' : ChainState} {b latestBlock : Block}

theorem Replica.blockValidation_eq (h : Replica s s') (hDistinct : Distinct env.E pool)
    (hIndex : IndexFrom env pool s.index) (b : Block) :
    blockValidation env s' b = blockValidation env s b := by
  have hAnswers : SameAnswers env.E (IndexOverlay.newIndexOverlay s.index).real s'.index :=
    h.sameAnswers hDistinct hIndex
  have hIndexer : (IndexOverlay.newIndexOverlay s'.index).indexer env.E id =
      (IndexOverlay.newIndexOverlay s.index).indexer env.E id := by
    unfold IndexOverlay.indexer
    congr 1
    · exact funext (getDomain_reroot hAnswers)
    · exact funext (getOwner_reroot hAnswers)
    · exact funext (getListPrice_reroot hAnswers)
    · exact funext (isForSale_reroot hAnswers)
    · exact funext (getTxByID_reroot hAnswers id)
    · exact funext (isSpent_reroot hAnswers)
  unfold blockValidation
  rw [hIndexer, h.ledger, h.commitStore, h.stakes]

/-- Replicas give the same verdict on every block, and stage the same copies. -/
theorem Replica.validateBlock_eq (h : Replica s s') (hDistinct : Distinct env.E pool)
    (hIndex : IndexFrom env pool s.index) (hPool : ∀ tx ∈ b.transactions, pool tx)
    (order order' : JournalOrder) (slotLeaderKey : Bytes) :
    validateBlock env order' s' b latestBlock slotLeaderKey =
      (validateBlock env order s b latestBlock slotLeaderKey).map (rerootStaged s'.index) := by
  have hPurges : purgesMet (s'.index.getPurgeableDomains b.slotNumber) b.transactions =
      purgesMet (s.index.getPurgeableDomains b.slotNumber) b.transactions :=
    purgesMet_congr (fun t => (h.index.purge b.slotNumber t).symm) b.transactions
  unfold validateBlock
  rw [hPurges, h.blockValidation_eq hDistinct hIndex, ← h.ledger, ← h.commitStore, ← h.stakes]
  refine bind_eq_map_bind fun _ _ => bind_eq_map_bind fun _ _ => bind_eq_map_bind fun _ _ =>
    bind_eq_map_bind fun ledger _ => bind_eq_map_bind fun _ _ => ?_
  rw [h.domainPass_eq hDistinct hIndex hPool order order']
  cases hPass : domainPass env order b.slotNumber b.index b.transactions
    ⟨creditFees b.transactions b.slotLeader ledger, .newIndexOverlay s.index,
      openCommits s.commitStore b.index⟩ with
  | error p => rfl
  | ok st =>
    have hReal : st.im.real = s.index := by
      refine domainPass_invariant (fun t => t.im.real = s.index) ?_ rfl hPass
      intro tx _ i t t' err hSame hApply
      exact (real_of_effect (applyDomainMutations_eq_ok hApply)).trans hSame
    have hHash : (rerootState s'.index st).im.getIndexHash env.E = st.im.getIndexHash env.E :=
      SameIndex.getIndexHash_reroot (hReal ▸ h.index)
    change (check (b.indexHash = (rerootState s'.index st).im.getIndexHash env.E)
      (BlockStop.reject .indexHash) >>= _) = _
    rw [hHash]
    exact bind_eq_map_bind fun _ _ => bind_eq_map_bind fun _ _ => bind_eq_map_bind fun _ _ =>
      bind_eq_map_bind fun _ _ => bind_eq_map_bind fun _ _ => rfl

end Verdict

/-! ## Nodes -/

section Chains

variable {bc : Blockchain} {h : Bytes} {blocks blocks' : List Block}

theorem chainTo_last (hChain : bc.ChainTo h blocks) :
    ∃ before last, blocks = before ++ [last] ∧ bc.blocks h = some last := by
  cases hChain with
  | genesis stored first => exact ⟨[], _, rfl, stored⟩
  | step stored later chain => exact ⟨_, _, rfl, stored⟩

theorem chainTo_unique (hChain : bc.ChainTo h blocks) (hChain' : bc.ChainTo h blocks') :
    blocks = blocks' := by
  induction hChain generalizing blocks' with
  | @genesis h block stored first =>
    cases hChain' with
    | genesis stored' first' => rw [Option.some.inj (stored.symm.trans stored')]
    | step stored' later' =>
      obtain rfl := Option.some.inj (stored.symm.trans stored')
      exact absurd first later'
  | @step h block before stored later chain ih =>
    cases hChain' with
    | genesis stored' first' =>
      obtain rfl := Option.some.inj (stored.symm.trans stored')
      exact absurd first' later
    | step stored' later' chain' =>
      obtain rfl := Option.some.inj (stored.symm.trans stored')
      rw [ih chain']

end Chains

/-- A node that follows a chain follows the chain to its tip. -/
theorem follows_chain {env : Env} {headers : Set Bytes} (hInj : Set.InjOn env.E.sha256 headers)
    {k : Nat} (hk : k < 2 ^ 63) {n : Node} (hRun : UndisturbedRun env headers k n) {tip : Bytes}
    {blocks : List Block} (hTip : n.blockchain.tip = some tip)
    (hChain : n.blockchain.ChainTo tip blocks) :
    ∃ latest, Follows env headers k n tip latest blocks := by
  rcases follows_of_run hInj hRun hk with rfl | ⟨tip', latest, blocks', hFollows⟩
  · exact absurd hTip (by simp)
  · obtain rfl : tip' = tip := Option.some.inj (hFollows.atTip.symm.trans hTip)
    obtain rfl := chainTo_unique hFollows.chain hChain
    exact ⟨latest, hFollows⟩

/-- Two nodes at one block: both panic alike, both leave it, or both take it and are replicas. -/
def SameTurn (b : Block) (n n' : Node) : Go Node → Go Node → Prop
  | .ok next, .ok next' => next = n ∧ next' = n' ∨
      next.blockchain = n.blockchain.addBlock b ∧ next'.blockchain = n'.blockchain.addBlock b ∧
        Replica next.state next'.state
  | .error p, .error p' => p = p'
  | _, _ => False

/-! ## Alice and bob -/

theorem eq_ok_of_toOption {ε α : Type} {x : Except ε α} {a : α} (h : x.toOption = some a) :
    x = .ok a := by
  cases x with
  | error e => cases h
  | ok b => exact congrArg Except.ok (Option.some.inj h)

/-- The genesis block of alice. -/
def replicaGenesis : Block :=
  okOr (newGenesisBlock raceEnv (StandIn.leader (utf8 "alice") 0) [])
    { index := 0, slotNumber := 0, slotLeader := [], transactions := [], prevHash := [] }

/-- The block that alice builds on it in slot 2. -/
def replicaBlock : Block :=
  StandIn.sealed raceEnv (StandIn.leader (utf8 "alice") 2) 2
    [racePayment (utf8 "alice") (utf8 "bob")] (raceStep raceStart raceGenesis)

def replicaHeaders : List Bytes := [replicaGenesis.hashData, replicaBlock.hashData]

/-- A node with the genesis block. -/
def replicaStart : Node :=
  { state := genesisState raceEnv, blockchain := ({} : Blockchain).addBlock replicaGenesis }

theorem replica_eval :
    ((newGenesisBlock raceEnv (StandIn.leader (utf8 "alice") 0) []).isOk = true ∧
      validateGenesisBlock raceEnv replicaGenesis (utf8 "alice")) ∧
    ((((raceStep raceStart raceGenesis).build raceEnv (.ascending _ _)
        (StandIn.leader (utf8 "alice") 2) 2
        [racePayment (utf8 "alice") (utf8 "bob")]).toOption.bind (·.proposal)).isSome = true ∧
      (validateBlock raceEnv reversedOrder (genesisState raceEnv) replicaBlock replicaGenesis
        (utf8 "alice")).isOk = true) ∧
    (replicaBlock.index ≠ 0 ∧ replicaBlock.hash ≠ replicaGenesis.hash ∧
      replicaBlock.prevHash = replicaGenesis.hash ∧
      replicaBlock.index = replicaGenesis.index + 1 ∧
      replicaBlock.transactions = [racePayment (utf8 "alice") (utf8 "bob")]) ∧
    ∀ x ∈ replicaHeaders, ∀ y ∈ replicaHeaders,
      Blockchain.StandIn.digest x = Blockchain.StandIn.digest y → x = y := by
  decide +kernel

theorem newGenesisBlock_replica :
    newGenesisBlock raceEnv (StandIn.leader (utf8 "alice") 0) [] = .ok replicaGenesis :=
  eq_ok_okOr replica_eval.1.1 _

section OnGenesis

variable {env : Env} {g b : Block}

theorem blocks_first : (({} : Blockchain).addBlock g).blocks g.hash = some g :=
  Blockchain.blocks_addBlock_self rfl

theorem blocks_on_first (hNe : b.hash ≠ g.hash) :
    (({} : Blockchain).addBlock g).blocks b.hash = none := by
  by_contra hSome
  obtain ⟨b', hb'⟩ := Option.ne_none_iff_exists'.mp hSome
  rcases Blockchain.blocks_addBlock_eq_some hb' with hOld | ⟨hHash, -⟩
  · exact absurd hOld (by simp)
  · exact hNe hHash

/-- A block on the genesis block becomes the tip. -/
theorem tip_on_first (hNe : b.hash ≠ g.hash) (hPrev : b.prevHash = g.hash)
    (hIndex : b.index = g.index + 1) :
    ((({} : Blockchain).addBlock g).addBlock b).tip = some b.hash := by
  have hTip : (({} : Blockchain).addBlock g).tip = some g.hash :=
    Blockchain.tip_addBlock_of_none rfl rfl
  exact Blockchain.tip_addBlock_of_extends (blocks_on_first hNe) hTip blocks_first hPrev hIndex

theorem chainTo_on_first (hFirst : g.index = 0) (hLater : b.index ≠ 0) (hNe : b.hash ≠ g.hash)
    (hPrev : b.prevHash = g.hash) :
    ((({} : Blockchain).addBlock g).addBlock b).ChainTo b.hash [g, b] := by
  have hChain : (({} : Blockchain).addBlock g).ChainTo b.prevHash [g] :=
    hPrev ▸ .genesis blocks_first hFirst
  exact .step (Blockchain.blocks_addBlock_self (blocks_on_first hNe)) hLater hChain.addBlock

theorem receive_first {slotLeader : Bytes} (order : JournalOrder)
    (hGenesis : validateGenesisBlock env g slotLeader) :
    Node.addBlock env order slotLeader g { state := genesisState env } =
      .ok { state := genesisState env, blockchain := ({} : Blockchain).addBlock g } := by
  unfold Node.addBlock
  rw [if_pos hGenesis.1, if_pos hGenesis]
  rfl

theorem receive_on_first {order : JournalOrder} {slotLeader : Bytes} {staged : Staged}
    (proposal : Option Proposal) (hLater : b.index ≠ 0)
    (hAccepted : validateBlock env order (genesisState env) b g slotLeader = .ok staged) :
    Node.addBlock env order slotLeader b
        ⟨genesisState env, ({} : Blockchain).addBlock g, proposal⟩ =
      .ok ⟨installValidated env order b.transactions staged (genesisState env),
        (({} : Blockchain).addBlock g).addBlock b, proposal⟩ := by
  have hLatest : (({} : Blockchain).addBlock g).getLatestBlock = some g := by
    rw [Blockchain.getLatestBlock, Blockchain.tip_addBlock_of_none rfl rfl]
    exact blocks_first
  unfold Node.addBlock
  rw [if_neg hLater]
  dsimp only
  rw [hLatest]
  dsimp only
  rw [hAccepted]
  rfl

theorem receive_replicaGenesis (order : JournalOrder) :
    raceStart.addBlock raceEnv order (utf8 "alice") replicaGenesis = .ok replicaStart :=
  receive_first order replica_eval.1.2

theorem receive_on_replicaGenesis {order : JournalOrder} {slotLeader : Bytes} {staged : Staged}
    (proposal : Option Proposal) (hLater : b.index ≠ 0)
    (hAccepted : validateBlock raceEnv order (genesisState raceEnv) b replicaGenesis slotLeader =
      .ok staged) :
    Node.addBlock raceEnv order slotLeader b { replicaStart with proposal } =
      .ok ⟨installValidated raceEnv order b.transactions staged (genesisState raceEnv),
        replicaStart.blockchain.addBlock b, proposal⟩ :=
  receive_on_first proposal hLater hAccepted

end OnGenesis

theorem run_raceGenesis : raceGenesis.run raceEnv raceStart = .ok replicaStart := by
  change (newGenesisBlock raceEnv _ [] >>= _) = _
  rw [newGenesisBlock_replica]
  rfl

/-- Alice builds the block. -/
theorem run_raceBuild : ∃ p : Proposal, p.block = replicaBlock ∧
    raceBuild.run raceEnv replicaStart = .ok { replicaStart with proposal := some p } := by
  have hStep : raceStep raceStart raceGenesis = replicaStart := by
    unfold raceStep
    rw [run_raceGenesis]
    rfl
  obtain ⟨p, hp⟩ := Option.isSome_iff_exists.mp replica_eval.2.1.1
  have hBlock : p.block = replicaBlock := by
    unfold replicaBlock StandIn.sealed
    rw [hp]
    rfl
  obtain ⟨n, hn, hProposal⟩ := Option.bind_eq_some_iff.mp hp
  rw [hStep] at hn
  have hBuild : raceBuild.run raceEnv replicaStart = .ok n := eq_ok_of_toOption hn
  refine ⟨p, hBlock, ?_⟩
  rw [hBuild]
  rcases build_eq_ok hBuild with rfl | ⟨_, _, _, -, -, rfl, -⟩
  · cases hProposal
  · rw [← hProposal]

/-- Alice creates the genesis block, builds the block and promotes it. -/
theorem replica_alice : ∃ n, UndisturbedRun raceEnv {x | x ∈ replicaHeaders} 3 n ∧
    n.blockchain = replicaStart.blockchain.addBlock replicaBlock := by
  obtain ⟨p, hBlock, hBuild⟩ := run_raceBuild
  have hRun₁ : UndisturbedRun raceEnv {x | x ∈ replicaHeaders} 1 replicaStart := by
    have hFree : raceGenesis.Undisturbed raceEnv raceStart := trivial
    refine .step .start hFree ?_ run_raceGenesis
    intro b hb
    rw [← Except.ok.inj (newGenesisBlock_replica.symm.trans hb)]
    exact List.mem_cons_self
  have hRun₂ : UndisturbedRun raceEnv {x | x ∈ replicaHeaders} 2
      { replicaStart with proposal := some p } := by
    have hFree : raceBuild.Undisturbed raceEnv replicaStart := rfl
    exact .step hRun₁ hFree trivial hBuild
  have hFree : racePromote.Undisturbed raceEnv { replicaStart with proposal := some p } := trivial
  have hHeader : racePromote.Hashes raceEnv { replicaStart with proposal := some p }
      {x | x ∈ replicaHeaders} := by
    intro q hq
    rw [← Option.some.inj hq, hBlock]
    exact List.mem_cons_of_mem _ List.mem_cons_self
  refine ⟨_, .step hRun₂ hFree hHeader rfl, ?_⟩
  exact congrArg replicaStart.blockchain.addBlock hBlock

/-- Bob receives both. -/
theorem replica_bob : ∃ n, UndisturbedRun raceEnv {x | x ∈ replicaHeaders} 2 n ∧
    n.blockchain = replicaStart.blockchain.addBlock replicaBlock := by
  obtain ⟨⟨-, hGenesis⟩, ⟨-, hTaken⟩, ⟨hLater, -⟩, -⟩ := replica_eval
  obtain ⟨staged, hAccepted⟩ := exists_eq_ok hTaken
  have hRun₁ : UndisturbedRun raceEnv {x | x ∈ replicaHeaders} 1 replicaStart := by
    have hFree : NodeStep.Undisturbed raceEnv raceStart
        (.receive reversedOrder (utf8 "alice") replicaGenesis) := .inl hGenesis.1
    exact .step .start hFree List.mem_cons_self (receive_replicaGenesis reversedOrder)
  have hFree : NodeStep.Undisturbed raceEnv replicaStart
      (.receive reversedOrder (utf8 "alice") replicaBlock) := .inr (.inl rfl)
  exact ⟨_, .step hRun₁ hFree (List.mem_cons_of_mem _ List.mem_cons_self)
    (receive_on_replicaGenesis none hLater hAccepted), rfl⟩

theorem distinct_eq (E : External) (tx : Transaction) : Distinct E (· = tx) where
  numbers := by
    rintro tx tx' rfl rfl - - -
    rfl
  names := by
    rintro d ⟨tx, rfl, rfl⟩ d' ⟨tx', rfl, rfl⟩ -
    rfl

/-! ## The theorem -/

end Bdns.Safety
