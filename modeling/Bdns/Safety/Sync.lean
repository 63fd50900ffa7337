import Bdns.Safety.Forks

/-!
# Catching up

A node that is behind asks a peer for blocks. `HandleGetBlock` ignores the height in the request and
answers with its last six blocks, each as a message of its own. Whatever of a peer's chain is
delivered, in whatever order and how often, the receiver stays on a first part of that chain
(`OnLine.deliver`). The answer closes a gap of up to six blocks when it is delivered in order
(`Follows.deliver`), and does nothing for a node that is further behind: the block that it needs is
never among those that are sent.
-/

namespace Bdns.Safety

open Lib Blockchain Network Index

/-! ## The code -/

/-- `HandleGetBlock`: the blocks from five below the latest one, in the order in which they are
sent. The tip in memory is that of the database. -/
def handleGetBlock (n : Node) (fuel : Nat) : Option (Go (List Block)) :=
  match n.blockchain.getLatestBlock with
  | none => some (throw .nilDereference)
  | some latestBlock =>
    let start := latestBlock.index - 5
    (Handle.openBlockchain n.blockchain).getBlocksFrom fuel (if start < 0 then 0 else start)

/-- Blocks that reach a node one after the other. Each is handled with a journal order of its own,
and with the leader that the schedule of the node names for its timestamp. -/
def deliver (env : Env) (orders : Block → JournalOrder) (leaderOf : Block → Bytes)
    (blocks : List Block) (n : Node) : Go Node :=
  blocks.foldlM (fun n b => n.addBlock env (orders b) (leaderOf b) b) n

/-! ## The answer -/

section Answer

variable {env : Env} {n : Node} {line : List Block}

/-- The answer of a node on a line: its last six blocks. -/
theorem OnLine.handleGetBlock (h : OnLine env n line) (hShort : line.length < 2 ^ 63) {fuel : Nat}
    (hFuel : line.length ≤ fuel) :
    handleGetBlock n fuel = some (.ok (line.drop (line.length - 6))) := by
  obtain ⟨last, hLatest, hTip, -, hHeight, hPos⟩ := h.latest hShort
  obtain ⟨first, last', hLine, hFirst, hTip'⟩ := h.line
  have hReads : (Handle.openBlockchain n.blockchain).Reads line :=
    Handle.Line.reads hLine hFirst (by omega) hTip' hTip'
  have hIndex : last.index.toInt = line.length - 1 := by
    have hBounds := last.index.toInt_lt
    have hLow := last.index.le_toInt
    rw [Int64.toInt_add, show (1 : Int64).toInt = 1 from rfl, Int.bmod_def] at hHeight
    split at hHeight <;> omega
  have hStart : (last.index - 5).toInt = line.length - 6 := by
    rw [Int64.toInt_sub, show (5 : Int64).toInt = 5 from rfl, hIndex,
      Int.bmod_eq_of_le (by omega) (by omega)]
    omega
  have hHeightOf : (if last.index - 5 < 0 then 0 else last.index - 5).toInt.toNat =
      line.length - 6 := by
    split
    · rename_i hNegative
      rw [Int64.lt_iff_toInt_lt, hStart] at hNegative
      change _ < (0 : Int) at hNegative
      change (0 : Int).toNat = _
      omega
    · rw [hStart]
      omega
  unfold Safety.handleGetBlock
  rw [hLatest]
  dsimp only
  rw [hReads.blocksFrom _ fuel hFuel, hHeightOf]

end Answer

/-! ## Any delivery -/

section Delivery

variable {env : Env} {n n' : Node} {chain : List Block} {b : Block}

/-- The places of a chain are its indexes. -/
theorem OnLine.index_at (h : OnLine env n chain) {i : Nat} (hb : chain[i]? = some b) :
    b.index = Int64.ofNat i := by
  obtain ⟨first, last, hLine, hFirst, -⟩ := h.line
  have hPlace := congrArg (fun xs => xs[i]?) (hLine.indexes hFirst)
  obtain ⟨hi, rfl⟩ := List.getElem?_eq_some_iff.mp hb
  simpa [hi] using hPlace

theorem place_of_index (h : OnLine env n chain) (hShort : chain.length < 2 ^ 63)
    (hb : b ∈ chain) {i : Nat} (hi : i < 2 ^ 63) (hIndex : b.index = Int64.ofNat i) :
    chain[i]? = some b := by
  obtain ⟨j, hj⟩ := List.getElem?_of_mem hb
  have hPlace := h.index_at hj
  obtain ⟨hjLt, -⟩ := List.getElem?_eq_some_iff.mp hj
  rw [hIndex] at hPlace
  have hInt := congrArg Int64.toInt hPlace
  rw [Int64.toInt_ofNat_of_lt hi, Int64.toInt_ofNat_of_lt (by omega)] at hInt
  rw [Int.ofNat.inj hInt]
  exact hj

/-- A block of a chain leaves a node on a first part of the chain where it is, or adds the next
block of the chain. -/
theorem OnLine.addBlock_of_chain {sender : Node} (hSender : OnLine env sender chain)
    (hShort : chain.length < 2 ^ 63) {m : Nat} (h : OnLine env n (chain.take m))
    (hLe : m ≤ chain.length) (hb : b ∈ chain) {order : JournalOrder} {slotLeader : Bytes}
    (hRun : n.addBlock env order slotLeader b = .ok n') :
    OnLine env n' (chain.take m) ∨ m < chain.length ∧ OnLine env n' (chain.take (m + 1)) := by
  have hLength : (chain.take m).length = m := by
    rw [List.length_take]
    omega
  rcases addBlock_cases hRun with rfl | ⟨hHash, hProposal, hStore, hForm⟩
  · exact .inl h
  · have hProposed : ∀ p ∈ n'.proposal, p.block.hash = p.block.computeHash env.E :=
      hProposal ▸ h.proposed
    obtain ⟨last, hLatest, -, -, hHeight, hPos⟩ := h.latest (by omega)
    rcases h.addBlock hHash hStore hProposed with hSame | hNext
    · exact .inl hSame
    · -- the block that was put on top has the height of the line as its index
      have hIndex : b.index = Int64.ofNat m := by
        have hAt : (chain.take m ++ [b])[m]? = some b := by
          rw [List.getElem?_append_right (by omega), hLength, Nat.sub_self]
          rfl
        exact hNext.index_at hAt
      have hPlace := place_of_index hSender hShort hb (by omega) hIndex
      obtain ⟨hLt, hGet⟩ := List.getElem?_eq_some_iff.mp hPlace
      refine .inr ⟨hLt, ?_⟩
      rwa [List.take_add_one, hPlace, Option.toList_some]

/-- Deliveries of blocks of a chain, in any order. -/
theorem OnLine.deliver {sender : Node} (hSender : OnLine env sender chain)
    (hShort : chain.length < 2 ^ 63) {m : Nat} (h : OnLine env n (chain.take m))
    (hLe : m ≤ chain.length) {orders : Block → JournalOrder} {leaderOf : Block → Bytes}
    {blocks : List Block} (hBlocks : ∀ b ∈ blocks, b ∈ chain)
    (hRun : deliver env orders leaderOf blocks n = .ok n') :
    ∃ m', m ≤ m' ∧ m' ≤ chain.length ∧ OnLine env n' (chain.take m') := by
  refine foldlM_invariant
    (fun n => ∃ m', m ≤ m' ∧ m' ≤ chain.length ∧ OnLine env n (chain.take m')) ?_
    ⟨m, Nat.le_refl m, hLe, h⟩ hRun
  rintro b hb n₁ n₂ ⟨m', hm, hm', hLine⟩ hStep
  rcases hSender.addBlock_of_chain hShort hLine hm' (hBlocks b hb) hStep with hSame | ⟨hLt, hNext⟩
  · exact ⟨m', hm, hm', hSame⟩
  · exact ⟨m' + 1, by omega, hLt, hNext⟩

end Delivery

/-! ## Delivery in order -/

section InOrder

variable {env : Env} {headers : Set Bytes} {k : Nat} {n : Node} {tip : Bytes} {latest b : Block}
  {before after : List Block} {s : ChainState}

/-- The last block of a chain that `ValidateBlock` accepts. -/
theorem chain_concat (h : Chain env (before ++ [b]) s) (hBefore : before ≠ []) :
    ∃ s₀ last order slotLeader staged, Chain env before s₀ ∧ before.getLast? = some last ∧
      validateBlock env order s₀ b last slotLeader = .ok staged := by
  generalize hAll : before ++ [b] = all at h
  cases h with
  | genesis block =>
    have hLength := congrArg List.length hAll
    simp only [List.length_append, List.length_singleton] at hLength
    exact absurd (List.length_eq_zero_iff.mp (by omega)) hBefore
  | @add blocks s₀ last b' order slotLeader staged chain tip accepted =>
    obtain ⟨rfl, hLast⟩ := List.append_inj' hAll rfl
    obtain rfl := List.singleton_inj.mp hLast
    exact ⟨s₀, last, order, slotLeader, staged, chain, tip, accepted⟩

theorem chain_before (h : Chain env (before ++ after) s) (hBefore : before ≠ []) :
    ∃ s₀, Chain env before s₀ := by
  induction after using List.reverseRecOn generalizing s with
  | nil =>
    rw [List.append_nil] at h
    exact ⟨s, h⟩
  | append_singleton after b ih =>
    rw [← List.append_assoc] at h
    obtain ⟨s₀, -, -, -, -, hChain, -⟩ := chain_concat h (by simp [hBefore])
    exact ih hChain

/-- A chain of accepted blocks is replayed. -/
theorem replays_of_chain {blocks : List Block} (h : Chain env blocks s) :
    Replays env blocks s := by
  induction h with
  | genesis block => exact .genesis block
  | add chain tip accepted ih => exact .validated ih (validateBlock_eq_ok accepted).2.2

theorem acceptedTxs_before (hBefore : before ≠ []) :
    ∀ tx ∈ acceptedTxs before, tx ∈ acceptedTxs (before ++ after) := by
  intro tx hTx
  rw [acceptedTxs, List.tail_append_of_ne_nil hBefore, List.flatMap_append]
  exact List.mem_append_left _ hTx

theorem Follows.last (h : Follows env headers k n tip latest before) :
    before.getLast? = some latest := by
  obtain ⟨blocks, last, rfl, hLast⟩ := chainTo_last h.chain
  rw [List.getLast?_append, List.getLast?_singleton,
    Option.some.inj (hLast.symm.trans h.stored)]
  rfl

/-- A node takes the next block of a chain that `ValidateBlock` accepts. -/
theorem Follows.next (h : Follows env headers k n tip latest before) (hIdle : n.proposal = none)
    (hInj : Set.InjOn env.E.sha256 headers) (hk : k + 1 < 2 ^ 63) (hHeader : b.hashData ∈ headers)
    (hValid : Chain env (before ++ [b]) s)
    (hDistinct : Distinct env.E (· ∈ acceptedTxs (before ++ [b]))) (order : JournalOrder) :
    ∃ n', n.addBlock env order b.slotLeader b = .ok n' ∧ n'.proposal = none ∧
      Follows env headers (k + 1) n' b.hash b (before ++ [b]) := by
  have hBefore : before ≠ [] := ne_nil_of_replays h.replays
  obtain ⟨s₀, last, order₀, slotLeader, staged, hChain, hLast, hAccepted⟩ :=
    chain_concat hValid hBefore
  obtain rfl : last = latest := Option.some.inj (hLast.symm.trans h.last)
  obtain ⟨hHeaderOk, -, -⟩ := validateBlock_eq_ok hAccepted
  obtain ⟨hNext, hSlot, hPrev, hLeader, hHash⟩ := checkHeader_eq_ok hHeaderOk
  -- the node holds a replica of the state in which the block was accepted
  have hEarlier := @acceptedTxs_before before [b] hBefore
  have hReplica : Replica s₀ n.state :=
    replica_of_replays (hDistinct.mono hEarlier) (replays_of_chain hChain) h.replays
  have hIndex := (indexFrom_of_replays (replays_of_chain hChain)).mono hEarlier
  have hPool : ∀ tx ∈ b.transactions, tx ∈ acceptedTxs (before ++ [b]) := by
    rw [acceptedTxs_concat hBefore]
    exact fun tx hTx => List.mem_append_right _ hTx
  have hVerdict : validateBlock env order n.state b last b.slotLeader =
      .ok (rerootStaged n.state.index staged) := by
    rw [hLeader, hReplica.validateBlock_eq hDistinct hIndex hPool order₀ order, hAccepted]
    rfl
  have hLater : b.index ≠ 0 := by
    intro hZero
    refine h.toInt_succ ?_
    rw [hNext, hZero]
    rfl
  refine ⟨⟨installValidated env order b.transactions (rerootStaged n.state.index staged) n.state,
    n.blockchain.addBlock b, none⟩, ?_, rfl, ?_⟩
  · unfold Node.addBlock
    rw [if_neg hLater, h.getLatestBlock]
    dsimp only
    rw [hVerdict, ← hIdle]
    rfl
  · exact h.extend hInj hk hPrev.symm hNext.symm hSlot hHash hHeader
      (.validated h.replays (validateBlock_eq_ok hVerdict).2.2)

/-- Blocks of a valid chain, delivered in order from the next one on. -/
theorem Follows.deliver (h : Follows env headers k n tip latest before) (hIdle : n.proposal = none)
    (hInj : Set.InjOn env.E.sha256 headers) (hk : k + after.length < 2 ^ 63)
    (hHeaders : ∀ b ∈ after, b.hashData ∈ headers) (hValid : Chain env (before ++ after) s)
    (hDistinct : Distinct env.E (· ∈ acceptedTxs (before ++ after)))
    (orders : Block → JournalOrder) {leaderOf : Block → Bytes}
    (hLeader : ∀ b ∈ after, leaderOf b = b.slotLeader) :
    ∃ n' tip' latest', deliver env orders leaderOf after n = .ok n' ∧
      Follows env headers (k + after.length) n' tip' latest' (before ++ after) := by
  induction after generalizing k n tip latest before with
  | nil =>
    rw [List.append_nil]
    exact ⟨n, tip, latest, rfl, h⟩
  | cons b after ih =>
    have hBefore : before ≠ [] := ne_nil_of_replays h.replays
    rw [List.append_cons] at hValid hDistinct ⊢
    obtain ⟨s₁, hFirst⟩ := chain_before hValid (by simp)
    rw [List.length_cons] at hk
    obtain ⟨n₁, hAdd, hIdle₁, hFollows⟩ := h.next hIdle hInj (by omega)
      (hHeaders b List.mem_cons_self) hFirst
      (hDistinct.mono (acceptedTxs_before (by simp))) (orders b)
    obtain ⟨n', tip', latest', hRun, hEnd⟩ := ih hFollows hIdle₁ (by omega)
      (fun b' hb' => hHeaders b' (List.mem_cons_of_mem _ hb')) hValid hDistinct
      (fun b' hb' => hLeader b' (List.mem_cons_of_mem _ hb'))
    refine ⟨n', tip', latest', ?_, ?_⟩
    · unfold Safety.deliver
      rw [List.foldlM_cons, hLeader b List.mem_cons_self, hAdd]
      exact hRun
    · rw [List.length_cons, show k + (after.length + 1) = k + 1 + after.length by omega]
      exact hEnd

theorem Follows.stored_mem (h : Follows env headers k n tip latest before) (hb : b ∈ before) :
    n.blockchain.blocks b.hash = some b := by
  obtain ⟨key, hKey⟩ := chainTo_stored h.chain hb
  rw [(h.known key b hKey).1]
  exact hKey

theorem Follows.height (h : Follows env headers k n tip latest before) (hk : k < 2 ^ 63) :
    (latest.index + 1).toInt = before.length := by
  have hIndex := h.index
  have hLength := h.length
  rw [Int64.toInt_add, show (1 : Int64).toInt = 1 from rfl,
    Int.bmod_eq_of_le (by omega) (by omega)]
  omega

/-- A block that is not the next one changes nothing; a genesis block must be the node's own. -/
theorem Follows.skip (h : Follows env headers k n tip latest before) (hk : k < 2 ^ 63)
    (hIndex : b.index.toInt ≠ before.length) (hGenesis : b.index = 0 → b ∈ before)
    (order : JournalOrder) (slotLeader : Bytes) : n.addBlock env order slotLeader b = .ok n := by
  by_cases hZero : b.index = 0
  · have hStored := h.stored_mem (hGenesis hZero)
    have hSame : n.blockchain.addBlock b = n.blockchain := by
      rw [Blockchain.addBlock, hStored, Option.isSome_some, if_pos rfl]
    unfold Node.addBlock
    rw [if_pos hZero, hSame]
    split <;> rfl
  · apply addBlock_of_index_ne h.getLatestBlock hZero
    intro hNext
    rw [← hNext, h.height hk] at hIndex
    exact hIndex rfl

/-- Blocks none of which is the next one. -/
theorem Follows.deliver_skip (h : Follows env headers k n tip latest before) (hk : k < 2 ^ 63)
    {blocks : List Block} (hBlocks : ∀ b ∈ blocks, b.index.toInt ≠ before.length ∧
      (b.index = 0 → b ∈ before)) (orders : Block → JournalOrder) (leaderOf : Block → Bytes) :
    Safety.deliver env orders leaderOf blocks n = .ok n := by
  induction blocks with
  | nil => rfl
  | cons b blocks ih =>
    obtain ⟨hIndex, hGenesis⟩ := hBlocks b List.mem_cons_self
    unfold Safety.deliver
    rw [List.foldlM_cons, h.skip hk hIndex hGenesis]
    exact ih fun b' hb' => hBlocks b' (List.mem_cons_of_mem _ hb')

end InOrder

/-! ## A node one block behind -/

/-- Two nodes take the genesis block, one of them the next block as well. -/
theorem exists_gap : ∃ net : Bool → Node, NetRun raceEnv (fun _ => raceStart) 3 net ∧
    net false = replicaStart ∧
    (net true).blockchain = replicaStart.blockchain.addBlock replicaBlock := by
  obtain ⟨staged, hAccepted⟩ := exists_eq_ok replica_eval.2.1.2
  have hAlice := receive_on_replicaGenesis none replica_eval.2.2.1.1 hAccepted
  refine ⟨_, .step both_at_genesis true (.receive reversedOrder (utf8 "alice") replicaBlock) hAlice,
    ?_, ?_⟩
  · rw [Function.update_of_ne (by decide)]
  · rw [Function.update_self]

theorem chains_of_gap {net : Bool → Node} (hBob : net false = replicaStart)
    (hAlice : (net true).blockchain = replicaStart.blockchain.addBlock replicaBlock) :
    ((net false).blockchain.tip = some replicaGenesis.hash ∧
        (net false).blockchain.ChainTo replicaGenesis.hash [replicaGenesis]) ∧
      (net true).blockchain.tip = some replicaBlock.hash ∧
        (net true).blockchain.ChainTo replicaBlock.hash ([replicaGenesis] ++ [replicaBlock]) := by
  obtain ⟨-, -, ⟨hLater, hNe, hPrev, hIndex, -⟩, -⟩ := replica_eval
  rw [hAlice, hBob]
  exact ⟨⟨Blockchain.tip_addBlock_of_none rfl rfl,
      .genesis blocks_first replica_eval.1.2.1⟩,
    tip_on_first hNe hPrev hIndex, chainTo_on_first replica_eval.1.2.1 hLater hNe hPrev⟩

/-! ## Theorems -/

/-- **A peer's chain is never mixed up.** If the chain of one node is a first part of the chain of
another, it is still one, and no shorter, after any blocks of the other chain have been delivered,
in any order and any number. -/
theorem deliveries_keep_a_first_part {ι : Type} [DecidableEq ι] {env : Env}
    {start net : ι → Node} (hStart : ∀ i, Blank (start i)) {k : Nat} (hk : k < 2 ^ 63)
    (hRun : NetRun env start k net) {i j : ι} {tip tip' : Bytes} {before after : List Block}
    (hTip : (net i).blockchain.tip = some tip) (hTip' : (net j).blockchain.tip = some tip')
    (hChain : (net i).blockchain.ChainTo tip before)
    (hChain' : (net j).blockchain.ChainTo tip' (before ++ after))
    {orders : Block → JournalOrder} {leaderOf : Block → Bytes} {blocks : List Block}
    (hBlocks : ∀ b ∈ blocks, b ∈ before ++ after) {n : Node}
    (hDeliver : deliver env orders leaderOf blocks (net i) = .ok n) :
    ∃ newTip more rest, after = more ++ rest ∧ n.blockchain.tip = some newTip ∧
      n.blockchain.ChainTo newTip (before ++ more) := by
  obtain ⟨hSender, hLength⟩ := OnLine.of_chain hRun (hStart j) hk hTip' hChain'
  obtain ⟨hReceiver, -⟩ := OnLine.of_chain hRun (hStart i) hk hTip hChain
  have hTake : (before ++ after).take before.length = before := List.take_left
  rw [← hTake] at hReceiver
  obtain ⟨m, hLe, hLe', hLine⟩ := hSender.deliver (by omega) hReceiver
    (by rw [List.length_append]; omega) hBlocks hDeliver
  obtain ⟨newTip, hNewTip, hNewChain⟩ := hLine.chainTo (by rw [List.length_take]; omega)
  refine ⟨newTip, after.take (m - before.length), after.drop (m - before.length),
    (List.take_append_drop _ _).symm, hNewTip, ?_⟩
  rwa [List.take_append, List.take_of_length_le hLe] at hNewChain

theorem deliveries_keep_a_first_part_bob :
    ∃ n newTip more rest, deliver raceEnv (fun _ => reversedOrder) (fun _ => utf8 "alice")
        [replicaBlock] replicaStart = .ok n ∧ [replicaBlock] = more ++ rest ∧
      n.blockchain.tip = some newTip ∧
      n.blockchain.ChainTo newTip ([replicaGenesis] ++ more) := by
  obtain ⟨net, hRun, hBob, hAlice⟩ := exists_gap
  obtain ⟨⟨hTip, hChain⟩, hTip', hChain'⟩ := chains_of_gap hBob hAlice
  obtain ⟨staged, hAccepted⟩ := exists_eq_ok replica_eval.2.1.2
  have hTaken := receive_on_replicaGenesis none replica_eval.2.2.1.1 hAccepted
  obtain ⟨n, hDeliver⟩ : ∃ n, deliver raceEnv (fun _ => reversedOrder) (fun _ => utf8 "alice")
      [replicaBlock] (net false) = .ok n := by
    unfold deliver
    rw [List.foldlM_cons, hBob]
    exact ⟨_, congrArg (· >>= pure) hTaken⟩
  obtain ⟨newTip, more, rest, hSplit, hNew, hNewChain⟩ := deliveries_keep_a_first_part
    (fun _ => ⟨rfl, rfl⟩) (by decide) hRun hTip hTip' hChain hChain'
    (fun b hb => List.mem_append_right _ hb) hDeliver
  exact ⟨n, newTip, more, rest, hBob ▸ hDeliver, hSplit, hNew, hNewChain⟩

end Bdns.Safety
