import Bdns.Gateway.Server
import Bdns.Safety.Locations
import Bdns.Safety.Replay

/-!
# Headers by height

`waitForHeader` takes the position of a header in the chain of a light node for the height of its
block. Headers arrive over any number of streams, and each one extends the chain or is dropped. So
positions and heights differ by the height of the first header, and a stream that is requested by a
node without headers does not start at the genesis block.
-/

namespace Bdns.Safety

open Lib Blockchain Network Gateway

/-! ## Streams of honest nodes -/

/-- A chain from the genesis block that is made of the given blocks. -/
def ChainOf (env : Env) (genesis : Block) (honest : Set Block) (blocks : List Block) : Prop :=
  (∃ s, Chain env blocks s) ∧ blocks.head? = some genesis ∧ ∀ b ∈ blocks, b ∈ honest

/-- A header that an honest node has. -/
def Honest.header (env : Env) (genesis : Block) (honest : Set Block) (header : BlockHeader) :
    Prop :=
  ∃ blocks, ChainOf env genesis honest blocks ∧ ∃ b ∈ blocks, b.header = header

/-- A store with a chain that the walk reaches the end of. -/
def Honest.store (env : Env) (genesis : Block) (honest : Set Block) (walk : Nat)
    (bc : Blockchain.Blockchain) : Prop :=
  ∃ tip blocks, bc.tip = some tip ∧ bc.ChainTo tip blocks ∧ blocks.length ≤ walk ∧
    ChainOf env genesis honest blocks

/-- A light node. -/
structure Subscriber where
  headerChain : List BlockHeader := []
  /-- What each stream delivers from now on. -/
  streams : List (List BlockHeader) := []
  /-- The headers that `AddBlockHeader` was called with. -/
  received : List BlockHeader := []

/-- One step of a light node: it subscribes to a full node for the headers beyond its own, or the
next header of a stream arrives. -/
inductive Subscriber.Step (env : Env) (genesis : Block) (honest : Set Block) :
    Subscriber → Subscriber → Prop
  | subscribe {n : Subscriber} {walk sends : Nat} {bc : Blockchain.Blockchain}
      {bcAt : Int64 → Blockchain.Blockchain} {live sent : List BlockHeader}
      (stores : ∀ i, Honest.store env genesis honest walk (bcAt i))
      (broadcasts : ∀ header ∈ live, Honest.header env genesis honest header)
      (sends : subscribeHeaders walk bc bcAt sends live (.ofNat n.headerChain.length) = .ok sent) :
      Step env genesis honest n { n with streams := n.streams ++ [sent] }
  | receive {n : Subscriber} {j : Nat} {header : BlockHeader} {rest : List BlockHeader}
      (next : n.streams[j]? = some (header :: rest)) :
      Step env genesis honest n
        { headerChain := addBlockHeader n.headerChain header
          streams := n.streams.set j rest
          received := n.received ++ [header] }

/-- The states that a light node goes through. -/
inductive Subscriber.Run (env : Env) (genesis : Block) (honest : Set Block) :
    List Subscriber → Prop
  | start : Run env genesis honest [{}]
  | step {states : List Subscriber} {n n' : Subscriber} (run : Run env genesis honest states)
      (last : states.getLast? = some n) (step : n.Step env genesis honest n') :
      Run env genesis honest (states ++ [n'])

/-- What is taken for granted of the honest nodes: they have the same genesis block, no two of
their blocks have one digest, and the seed in the genesis block is none of the digests. -/
structure Honest.Network (env : Env) (genesis : Block) (honest : Set Block) : Prop where
  first : genesis.index = 0
  hash : genesis.hash = genesis.computeHash env.E
  seed : ∀ b ∈ honest, b.hash ≠ genesis.prevHash
  digests : Set.InjOn env.E.sha256 (Block.hashData '' honest)

section Heights

variable {env : Env} {genesis : Block} {honest : Set Block}

/-- Each block of a chain is the first one or follows another. -/
theorem follows_of_chain {blocks : List Block} {s : ChainState} (hChain : Chain env blocks s) :
    ∀ b ∈ blocks, blocks.head? = some b ∨
      (∃ p ∈ blocks, p.index + 1 = b.index ∧ p.hash = b.prevHash) ∧
        b.hash = b.computeHash env.E := by
  induction hChain with
  | genesis block =>
    intro b hb
    obtain rfl := List.mem_singleton.mp hb
    exact .inl rfl
  | @add blocks s last b₁ _ _ _ _ tip accepted ih =>
    intro b hb
    rcases List.mem_append.mp hb with hOld | hNew
    · rcases ih b hOld with hFirst | ⟨⟨p, hp, hLink⟩, hHash⟩
      · exact .inl (by rw [List.head?_append, hFirst, Option.some_or])
      · exact .inr ⟨⟨p, List.mem_append_left _ hp, hLink⟩, hHash⟩
    · obtain rfl := List.mem_singleton.mp hNew
      obtain ⟨hIndex, -, hPrev, -, hHash⟩ := checkHeader_eq_ok (validateBlock_eq_ok accepted).1
      exact .inr ⟨⟨last, List.mem_append_left _ (List.mem_of_getLast? tip), hIndex, hPrev⟩, hHash⟩

/-- A header that names another one as its predecessor is one higher. -/
theorem index_of_prevHash (hNetwork : Honest.Network env genesis honest) {header latest : BlockHeader}
    (hHeader : Honest.header env genesis honest header)
    (hLatest : Honest.header env genesis honest latest) (hPrev : header.prevHash = latest.hash) :
    header.index = latest.index + 1 := by
  obtain ⟨blocks, ⟨⟨s, hChain⟩, hFirst, hAll⟩, b, hb, rfl⟩ := hHeader
  obtain ⟨blocks', ⟨⟨s', hChain'⟩, hFirst', hAll'⟩, q, hq, rfl⟩ := hLatest
  rcases follows_of_chain hChain b hb with hGenesis | ⟨⟨p, hp, hIndex, hLink⟩, -⟩
  · obtain rfl := Option.some.inj (hFirst.symm.trans hGenesis)
    exact absurd hPrev.symm (hNetwork.seed q (hAll' q hq))
  · have hDigest {c : Block} {blocks : List Block} {s : ChainState} (hChain : Chain env blocks s)
        (hFirst : blocks.head? = some genesis) (hc : c ∈ blocks) :
        c.hash = c.computeHash env.E := by
      rcases follows_of_chain hChain c hc with hGenesis | ⟨-, hHash⟩
      · obtain rfl := Option.some.inj (hFirst.symm.trans hGenesis)
        exact hNetwork.hash
      · exact hHash
    have hData : p.hashData = q.hashData := by
      refine hNetwork.digests ⟨p, hAll p hp, rfl⟩ ⟨q, hAll' q hq, rfl⟩ ?_
      calc env.E.sha256 p.hashData = p.hash := (hDigest hChain hFirst hp).symm
        _ = q.hash := hLink.trans hPrev
        _ = env.E.sha256 q.hashData := hDigest hChain' hFirst' hq
    exact hIndex.symm.trans (congrArg (· + 1) (index_slot_of_hashData_eq hData).1)

/-- What holds of a light node in every state. -/
structure Subscriber.Ordered (env : Env) (genesis : Block) (honest : Set Block) (n : Subscriber) :
    Prop where
  streams : ∀ sent ∈ n.streams, ∀ header ∈ sent, Honest.header env genesis honest header
  chain : ∀ header ∈ n.headerChain, Honest.header env genesis honest header
  first : n.headerChain.head? = n.received.head?
  heights : ∀ (k : Nat) (header first : BlockHeader), n.headerChain[k]? = some header →
    n.received.head? = some first → header.index = first.index + .ofNat k

/-- Headers of a stream are those of honest nodes. -/
theorem honest_of_sent {walk sends : Nat} {bc : Blockchain.Blockchain}
    {bcAt : Int64 → Blockchain.Blockchain} {live sent : List BlockHeader} {startIndex : Int64}
    (hStores : ∀ i, Honest.store env genesis honest walk (bcAt i))
    (hLive : ∀ header ∈ live, Honest.header env genesis honest header)
    (hSent : subscribeHeaders walk bc bcAt sends live startIndex = .ok sent) :
    ∀ header ∈ sent, Honest.header env genesis honest header := by
  intro header hMem
  rcases header_of_subscribeHeaders hSent header hMem with hMem | ⟨i, b, hFound, rfl⟩
  · exact hLive header hMem
  · obtain ⟨tip, blocks, hTip, hStored, hWalk, hChain⟩ := hStores i
    unfold Blockchain.Blockchain.getBlockByIndex at hFound
    rw [hTip, Option.getD_some, hStored.findByIndex i hWalk] at hFound
    have hMem := List.mem_of_find?_eq_some (Except.ok.inj hFound)
    exact ⟨blocks, hChain, b, List.mem_reverse.mp hMem, rfl⟩

/-- `AddBlockHeader` keeps the order of heights. -/
theorem Subscriber.Ordered.receive (hNetwork : Honest.Network env genesis honest) {n : Subscriber}
    (h : n.Ordered env genesis honest) {j : Nat} {header : BlockHeader} {rest : List BlockHeader}
    (hNext : n.streams[j]? = some (header :: rest)) :
    Subscriber.Ordered env genesis honest
      { headerChain := addBlockHeader n.headerChain header
        streams := n.streams.set j rest
        received := n.received ++ [header] } := by
  have hStream := h.streams _ (List.mem_of_getElem? hNext)
  have hHeader := hStream header List.mem_cons_self
  have hStreams : ∀ sent ∈ n.streams.set j rest, ∀ header ∈ sent,
      Honest.header env genesis honest header := by
    intro sent hSent
    rcases List.mem_or_eq_of_mem_set hSent with hOld | rfl
    · exact h.streams sent hOld
    · exact fun header hMem => hStream header (List.mem_cons_of_mem _ hMem)
  unfold addBlockHeader
  cases hLast : n.headerChain.getLast? with
  | none =>
    -- the first header of all
    rw [List.getLast?_eq_none_iff] at hLast
    have hNone : n.received = [] := by
      rw [← List.head?_eq_none_iff, ← h.first, hLast]
      rfl
    refine ⟨hStreams, by simpa [hLast] using hHeader, by simp [hLast, hNone], ?_⟩
    intro k found first hFound hFirst
    rw [hLast, List.nil_append] at hFound
    obtain rfl : k = 0 := by simpa using (List.getElem?_eq_some_iff.mp hFound).1
    obtain rfl : header = found := Option.some.inj hFound
    obtain rfl : header = first := by simpa [hNone] using hFirst
    exact (Int64.add_zero _).symm
  | some latest =>
    have hSome : (n.received ++ [header]).head? = n.received.head? := by
      have hNe : n.received ≠ [] := by
        intro hNil
        have hEmpty := h.first
        rw [hNil, List.head?_nil, List.head?_eq_none_iff] at hEmpty
        simp [hEmpty] at hLast
      exact List.head?_append_of_ne_nil _ hNe
    have hDrop : Subscriber.Ordered env genesis honest
        { headerChain := n.headerChain, streams := n.streams.set j rest
          received := n.received ++ [header] } :=
      ⟨hStreams, h.chain, h.first.trans hSome.symm, fun k found first hFound hFirst =>
        h.heights k found first hFound (hSome.symm.trans hFirst)⟩
    dsimp only
    split
    · exact hDrop
    · split
      · exact hDrop
      · rename_i hPrev
        have hUp := index_of_prevHash hNetwork hHeader (h.chain latest (List.mem_of_getLast? hLast))
          (not_not.mp hPrev)
        refine ⟨hStreams, ?_, ?_, ?_⟩
        · intro found hFound
          rcases List.mem_append.mp hFound with hOld | hNew
          · exact h.chain found hOld
          · exact List.mem_singleton.mp hNew ▸ hHeader
        · rw [hSome, ← h.first]
          exact List.head?_append_of_ne_nil _ (List.ne_nil_of_mem (List.mem_of_getLast? hLast))
        · intro k found first hFound hFirst
          rw [hSome] at hFirst
          rcases Nat.lt_trichotomy k n.headerChain.length with hOld | rfl | hBeyond
          · rw [List.getElem?_append_left hOld] at hFound
            exact h.heights k found first hFound hFirst
          · obtain rfl : header = found := by simpa using hFound
            rw [List.getLast?_eq_getElem?] at hLast
            have hPos : 0 < n.headerChain.length :=
              List.length_pos_of_mem (List.mem_of_getElem? hLast)
            rw [hUp, h.heights _ latest first hLast hFirst, Int64.add_assoc]
            have hStep : (1 : Int64) = .ofNat 1 := rfl
            rw [hStep, ← Int64.ofNat_add, Nat.sub_add_cancel hPos]
          · have hLt := (List.getElem?_eq_some_iff.mp hFound).1
            rw [List.length_append, List.length_singleton] at hLt
            omega

theorem Subscriber.Ordered.step (hNetwork : Honest.Network env genesis honest) {n n' : Subscriber}
    (h : n.Ordered env genesis honest) (hStep : n.Step env genesis honest n') :
    n'.Ordered env genesis honest := by
  cases hStep with
  | subscribe hStores hLive hSent =>
    refine { h with streams := fun sent hMem => ?_ }
    rcases List.mem_append.mp hMem with hOld | hNew
    · exact h.streams sent hOld
    · obtain rfl := List.mem_singleton.mp hNew
      exact honest_of_sent hStores hLive hSent
  | receive hNext => exact h.receive hNetwork hNext

theorem Subscriber.Run.ordered (hNetwork : Honest.Network env genesis honest)
    {states : List Subscriber} (hRun : Run env genesis honest states) :
    ∀ n ∈ states, n.Ordered env genesis honest := by
  induction hRun with
  | start =>
    intro n hn
    obtain rfl := List.mem_singleton.mp hn
    exact ⟨by simp, by simp, rfl, by simp⟩
  | step _ hLast hStep ih =>
    intro n hn
    rcases List.mem_append.mp hn with hOld | hNew
    · exact ih n hOld
    · obtain rfl := List.mem_singleton.mp hNew
      exact (ih _ (List.mem_of_getLast? hLast)).step hNetwork hStep

/-- **When headers are found by height.** Positions are heights in every state if and only if the
first header of all was that of the genesis block. -/
theorem found_by_height_iff (hNetwork : Honest.Network env genesis honest)
    {states : List Subscriber} (hRun : Subscriber.Run env genesis honest states) :
    (∀ (index : Int64) (polls : List (List BlockHeader)) (header : BlockHeader),
      (∀ headerChain ∈ polls, ∃ n ∈ states, n.headerChain = headerChain) →
      waitForHeader index polls = .ok (some header) → header.index = index) ↔
    ∀ n ∈ states, ∀ first ∈ n.received.head?, first.index = 0 := by
  constructor
  · intro hFound n hn first hFirst
    have hOrdered := hRun.ordered hNetwork n hn
    refine hFound 0 [n.headerChain] first ?_ ?_
    · intro headerChain hMem
      exact ⟨n, hn, (List.mem_singleton.mp hMem).symm⟩
    · -- the first header stands at position 0
      have hAt : n.headerChain.head? = some first := hOrdered.first.trans hFirst
      obtain ⟨rest, hRest⟩ := List.head?_eq_some_iff.mp hAt
      rw [hRest, waitForHeader, if_pos, if_neg (by decide)]
      · rfl
      · rw [Int64.toInt_zero, List.length_cons]
        omega
  · intro hFirst index polls header hPolls hWait
    obtain ⟨hIndex, headerChain, hMem, hGet⟩ := waitForHeader_eq_some hWait
    obtain ⟨n, hn, rfl⟩ := hPolls headerChain hMem
    have hOrdered := hRun.ordered hNetwork n hn
    cases hHead : n.received.head? with
    | none =>
      rw [← hOrdered.first, List.head?_eq_none_iff] at hHead
      simp [hHead] at hGet
    | some first =>
      rw [hOrdered.heights _ header first hGet hHead, hFirst n hn first hHead, Int64.zero_add]
      have hNonneg : 0 ≤ index.toInt := by simpa using Int64.le_iff_toInt_le.mp hIndex
      rw [← Int64.ofInt_eq_ofNat, Int.toNat_of_nonneg hNonneg, Int64.ofInt_toInt]

end Heights

/-! ## A node that joins late -/

namespace StandIn

open Network.StandIn

/-- One block after the genesis block. -/
def joinedLog : List (Int64 × List Transaction) := [(1, [commitTx 1 0 [1]])]

def joinedBlocks : List Block := blocksOf joinedLog

theorem joined_network :
    Honest.Network registryEnv registryGenesis {b | b ∈ joinedBlocks} where
  first := by decide +kernel
  hash := by decide +kernel
  seed := by
    show ∀ b ∈ joinedBlocks, b.hash ≠ registryGenesis.prevHash
    decide +kernel
  digests := by
    refine Blockchain.StandIn.injOn_of_forall (joinedBlocks.map Block.hashData) ?_ ?_
    · rintro _ ⟨b, hb, rfl⟩
      exact List.mem_map_of_mem hb
    · decide +kernel

theorem joined_header : ∀ header ∈ joinedBlocks.map Block.header,
    Honest.header registryEnv registryGenesis {b | b ∈ joinedBlocks} header := by
  intro header hMem
  obtain ⟨b, hb, rfl⟩ := List.mem_map.mp hMem
  exact ⟨joinedBlocks, ⟨⟨_, (chain_afterLog (by decide +kernel)).1⟩, rfl, fun b hb => hb⟩, b, hb, rfl⟩

/-- A full node with the genesis block. -/
def joinedStore : Blockchain.Blockchain := (nodeOf []).blockchain

theorem joined_store : Honest.store registryEnv registryGenesis {b | b ∈ joinedBlocks} 1
    joinedStore := by
  obtain ⟨tip, hTip, hStored⟩ := @chainTo_nodeOf [] (by decide +kernel)
  refine ⟨tip, blocksOf [], hTip, hStored, by decide, ⟨_, Chain.genesis _⟩, rfl, ?_⟩
  intro b hb
  exact List.mem_append_left _ hb

/-- A node with one stream, on which the headers come live, after the first `k` of them. -/
def joinedAfter (live : List BlockHeader) (k : Nat) : Subscriber where
  headerChain := (live.take k).foldl addBlockHeader []
  streams := [live.drop k]
  received := live.take k

def joinedStates (live : List BlockHeader) (k : Nat) : List Subscriber :=
  ⟨[], [], []⟩ :: (List.range (k + 1)).map (joinedAfter live)

theorem joinedStates_succ (live : List BlockHeader) (k : Nat) :
    joinedStates live (k + 1) = joinedStates live k ++ [joinedAfter live (k + 1)] := by
  simp [joinedStates, List.range_succ]

theorem getLast?_joinedStates (live : List BlockHeader) (k : Nat) :
    (joinedStates live k).getLast? = some (joinedAfter live k) := by
  cases k with
  | zero => rfl
  | succ k => rw [joinedStates_succ, List.getLast?_concat]

theorem joined_run {live : List BlockHeader}
    (hLive : ∀ header ∈ live, header ∈ joinedBlocks.map Block.header) {k : Nat}
    (hk : k ≤ live.length) :
    Subscriber.Run registryEnv registryGenesis {b | b ∈ joinedBlocks} (joinedStates live k) := by
  induction k with
  | zero =>
    have hSent : subscribeHeaders 1 joinedStore (fun _ => joinedStore) 0 live (.ofNat 0) =
        .ok live := rfl
    exact .step .start rfl (.subscribe (fun _ => joined_store)
      (fun header hMem => joined_header header (hLive header hMem)) hSent)
  | succ k ih =>
    have hNext : (joinedAfter live k).streams[0]? = some (live[k] :: live.drop (k + 1)) :=
      congrArg some (List.drop_eq_getElem_cons hk)
    have hAfter : joinedAfter live (k + 1) =
        { headerChain := addBlockHeader (joinedAfter live k).headerChain live[k]
          streams := (joinedAfter live k).streams.set 0 (live.drop (k + 1))
          received := (joinedAfter live k).received ++ [live[k]] } := by
      unfold joinedAfter
      rw [List.take_succ_eq_append_getElem hk, List.foldl_append]
      rfl
    rw [joinedStates_succ, hAfter]
    exact .step (ih (by omega)) (getLast?_joinedStates live k) (.receive hNext)

end StandIn

open Network.StandIn StandIn in
/-- A node that subscribes before there is a block finds block 1 at height 1. -/
theorem found_by_height_iff_early :
    ∃ header, waitForHeader 1 [(joinedAfter (joinedBlocks.map Block.header) 2).headerChain] =
        .ok (some header) ∧ header.index = 1 := by
  have hRun := joined_run (fun header hMem => hMem)
    (show 2 ≤ (joinedBlocks.map Block.header).length by decide +kernel)
  have hFirst : ∀ n ∈ joinedStates (joinedBlocks.map Block.header) 2,
      ∀ first ∈ n.received.head?, first.index = 0 := by decide +kernel
  have hWait : (waitForHeader 1
      [(joinedAfter (joinedBlocks.map Block.header) 2).headerChain]).toOption.any
        (fun found => found.isSome) = true := by decide +kernel
  obtain ⟨found, hFound, hSome⟩ := exists_of_any hWait
  obtain ⟨header, rfl⟩ := Option.isSome_iff_exists.mp hSome
  refine ⟨header, hFound, (found_by_height_iff joined_network hRun).mpr hFirst 1 _ header ?_ hFound⟩
  intro headerChain hMem
  obtain rfl := List.mem_singleton.mp hMem
  exact ⟨_, List.mem_of_getLast? (getLast?_joinedStates _ 2), rfl⟩

open Network.StandIn StandIn in
/-- A node that subscribes when there is a genesis block already: its first header is that of
block 1, which it then takes for the block at height 0. -/
theorem late_header_taken_for_genesis :
    Honest.Network registryEnv registryGenesis {b | b ∈ joinedBlocks} ∧
      Subscriber.Run registryEnv registryGenesis {b | b ∈ joinedBlocks}
        (joinedStates ((joinedBlocks.map Block.header).drop 1) 1) ∧
      ∃ n ∈ joinedStates ((joinedBlocks.map Block.header).drop 1) 1,
        ∃ header, waitForHeader 0 [n.headerChain] = .ok (some header) ∧ header.index = 1 := by
  refine ⟨joined_network, joined_run (fun header hMem => List.mem_of_mem_drop hMem)
    (by decide +kernel), _, List.mem_of_getLast? (getLast?_joinedStates _ 1), ?_⟩
  have hWait : (waitForHeader 0
      [(joinedAfter ((joinedBlocks.map Block.header).drop 1) 1).headerChain]).toOption.any
        (fun found => found.any fun header => header.index = 1) = true := by decide +kernel
  obtain ⟨found, hFound, hSome⟩ := exists_of_any hWait
  cases found with
  | none => exact absurd hSome (by simp)
  | some header => exact ⟨header, hFound, of_decide_eq_true hSome⟩

end Bdns.Safety
