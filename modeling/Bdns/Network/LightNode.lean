import Bdns.Blockchain.MerkleBinding

/-!
# Light nodes

A light node keeps headers only. It asks full nodes for records and checks the Merkle proof
that comes with the answer against the root of its own header (`node_helper.go`, `node.go`,
`cache.go`).
-/

namespace Bdns.Network

open Lib Blockchain

/-! ## Headers -/

/-- `AddBlockHeader`: a header extends the chain, or is dropped. -/
def addBlockHeader (headerChain : List BlockHeader) (header : BlockHeader) : List BlockHeader :=
  match headerChain.getLast? with
  | none => headerChain ++ [header]
  | some latest =>
    if header.hash = latest.hash then headerChain
    else if header.prevHash ≠ latest.hash then headerChain
    else headerChain ++ [header]

/-- `waitForHeader`: the chain is looked at again and again until the timeout; `polls` are the
chains that are found. A negative index passes the length check and then panics. -/
def waitForHeader (index : Int64) : List (List BlockHeader) → Go (Option BlockHeader)
  | [] => pure none
  | headerChain :: polls =>
    if index.toInt < headerChain.length then
      if index < 0 then throw .indexOutOfRange
      else
        match headerChain[index.toInt.toNat]? with
        | none => throw .indexOutOfRange
        | some header => pure (some header)
    else waitForHeader index polls

/-! ## The cache -/

structure CacheEntry where
  records : List Record
  expiry : Int
  deriving DecidableEq

/-- Entries by domain and query type. -/
abbrev Cache := Bytes × Bytes → Option CacheEntry

/-- `SetToCache`, at time `now` in seconds. -/
def setToCache (cache : Cache) (now : Int) (domain queryType : Bytes) (records : List Record) :
    Cache :=
  Function.update cache (domain, queryType) (some ⟨records, now + 300⟩)

/-- `GetFromCache`: an expired entry is deleted. -/
def getFromCache (cache : Cache) (now : Int) (domain queryType : Bytes) :
    Cache × Option (List Record) :=
  match cache (domain, queryType) with
  | none => (cache, none)
  | some entry =>
    if entry.expiry < now then (Function.update cache (domain, queryType) none, none)
    else (cache, some entry.records)

/-! ## Proofs from full nodes -/

structure DNSProofResponse where
  domainName : Bytes
  records : List Record
  transaction : Transaction
  proof : MerkleProof
  blockHeader : BlockHeader

def filterByType (records : List Record) (queryType : Bytes) : List Record :=
  records.filter fun r => r.type = queryType

/-- `HandleDNSProof`: the cache after a response. -/
def handleDNSProof (E : External) (isFullNode : Bool) (polls : List (List BlockHeader))
    (now : Int) (cache : Cache) (response : DNSProofResponse) : Go Cache :=
  if isFullNode then pure cache
  else do
    match ← waitForHeader response.blockHeader.index polls with
    | none => pure cache
    | some header =>
      if header.hash ≠ response.blockHeader.hash then pure cache
      else
        if ← verifyMerkleProof E (some { response.proof with merkleRoot := header.merkleRoot })
        then
          let aRecords := filterByType response.records (utf8 "A")
          if 0 < aRecords.length then
            pure (setToCache cache now response.domainName (utf8 "A") aRecords)
          else pure cache
        else pure cache

/-! ## What the checks establish -/

theorem waitForHeader_eq_some {index : Int64} {polls : List (List BlockHeader)}
    {header : BlockHeader} (h : waitForHeader index polls = .ok (some header)) :
    0 ≤ index ∧ ∃ headerChain ∈ polls, headerChain[index.toInt.toNat]? = some header := by
  induction polls with
  | nil => simp [waitForHeader] at h
  | cons headerChain polls ih =>
    unfold waitForHeader at h
    split at h
    · split at h
      · simp at h
      · rename_i hNeg
        split at h
        · simp at h
        · rename_i found hFound
          simp only [pure_eq_ok, Option.some.injEq] at h
          exact ⟨Int64.not_lt.mp hNeg, headerChain, List.mem_cons_self, by rw [hFound, h]⟩
    · obtain ⟨hIndex, chain, hMem, hGet⟩ := ih h
      exact ⟨hIndex, chain, List.mem_cons_of_mem _ hMem, hGet⟩

/-- A response either leaves the cache as it is, or its path leads from its transaction hash
to the root of a header the node holds at the claimed index. -/
theorem handleDNSProof_cases {E : External} {isFullNode : Bool} {polls : List (List BlockHeader)}
    {now : Int} {cache cache' : Cache} {response : DNSProofResponse}
    (h : handleDNSProof E isFullNode polls now cache response = .ok cache') :
    cache' = cache ∨
      ∃ headerChain ∈ polls, ∃ header,
        headerChain[response.blockHeader.index.toInt.toNat]? = some header ∧
        verifyLoop E response.proof.txHash response.proof.proofPath response.proof.directions =
          .ok header.merkleRoot ∧
        cache' = setToCache cache now response.domainName (utf8 "A")
          (filterByType response.records (utf8 "A")) := by
  unfold handleDNSProof at h
  split at h
  · exact Or.inl (pure_eq_ok.mp h).symm
  · obtain ⟨found, hWait, h⟩ := bind_eq_ok.mp h
    cases found with
    | none => exact Or.inl (pure_eq_ok.mp h).symm
    | some header =>
      obtain ⟨-, headerChain, hMem, hGet⟩ := waitForHeader_eq_some hWait
      dsimp only at h
      split at h
      · exact Or.inl (pure_eq_ok.mp h).symm
      · obtain ⟨verified, hVerify, h⟩ := bind_eq_ok.mp h
        split at h
        · split at h
          · rename_i hTrue _
            obtain ⟨currentHash, hLoop, hEq⟩ := bind_eq_ok.mp hVerify
            simp only [pure_eq_ok] at hEq
            rw [← hEq, beq_iff_eq] at hTrue
            exact Or.inr ⟨headerChain, hMem, header, hGet, by rw [← hTrue]; exact hLoop,
              (pure_eq_ok.mp h).symm⟩
          · exact Or.inl (pure_eq_ok.mp h).symm
        · exact Or.inl (pure_eq_ok.mp h).symm

/-! ## What a cached answer is worth -/

/-- The header of an honest block carries the root of its transactions; the genesis block has
neither. -/
def HonestRoot (E : External) (b : Block) : Prop :=
  setupMerkleTree E b.transactions = .ok b.merkleRootHash ∨
    b.transactions = [] ∧ b.merkleRootHash = []

/-- A transaction whose digest a path leads to the root of an honest block is in the block, if
the siblings have the length of digests: otherwise they could cut an inner node's two digests
elsewhere. -/
theorem mem_transactions_of_verifyLoop {E : External} {b : Block} (hHonest : HonestRoot E b)
    {tx : Transaction} {path : List Bytes} {dirs : List Bool} {S : Set Bytes}
    (hInj : Set.InjOn E.sha256 S) (hTx : E.gobTx tx ∈ S)
    (hPath : ∀ s ∈ HashTree.walkHashed E.sha256 (E.sha256 (E.gobTx tx)) (path.zip dirs), s ∈ S)
    (hTree : ∀ s ∈ treeInputs E (rootTree (b.transactions.map E.gobTx)), s ∈ S)
    (hSiblings : ∀ s ∈ path, s.length = 32)
    (hVerify : verifyLoop E (E.sha256 (E.gobTx tx)) path dirs = .ok b.merkleRootHash) :
    tx ∈ b.transactions := by
  obtain ⟨-, hWalk⟩ := verifyLoop_eq_ok.mp hVerify
  rcases hHonest with hRoot | ⟨-, hRoot⟩
  · have hNe : 0 < b.transactions.length := by
      by_contra hZero
      rw [List.length_eq_zero_iff.mp (by omega : b.transactions.length = 0)] at hRoot
      simp [setupMerkleTree, newMerkleTree] at hRoot
    obtain ⟨t, ht, -⟩ := levels_rootTree (show 0 < (b.transactions.map E.gobTx).length by
      simpa using hNe)
    rw [setupMerkleTree_eq E hNe ht, Except.ok.injEq] at hRoot
    have hMem := HashTree.mem_leaves_of_walk E.sha256_length hInj
      (fun s hs => hTree s (by simpa [treeInputs, ht] using hs))
      (fun d hd => length_gobTx_ne E (mem_of_mem_leaves_rootTree ht d hd))
      (by have := E.gobTx_long tx; omega) hTx (fun e he => hSiblings _ (List.of_mem_zip he).1)
      hPath (hWalk.trans hRoot.symm)
    obtain ⟨tx', hMem', hEq⟩ := List.mem_map.mp (mem_of_mem_leaves_rootTree ht _ hMem)
    rwa [← E.gobTx_injective hEq]
  · -- the genesis block has an empty root, and a walk ends in a digest
    have hLen := HashTree.length_walk E.sha256_length (E.sha256_length (E.gobTx tx)) (path.zip dirs)
    rw [hWalk, hRoot] at hLen
    simp at hLen

/-- The transaction that gives `a.bdns` its address. -/
def sampleTx : Transaction :=
  { tid := 1, type := .reveal, domainName := utf8 "a.bdns"
    records := [⟨utf8 "A", utf8 "10.0.0.1", 0⟩] }

def sampleGenesis : Block :=
  { index := 0, slotNumber := 0, slotLeader := [7], transactions := [], prevHash := [1],
    hash := [2] }

def sampleBlock : Block :=
  { index := 1, slotNumber := 1, slotLeader := [7], prevHash := [2], hash := [3]
    transactions := [sampleTx, StandIn.plainTx 2]
    merkleRootHash := StandIn.digest (StandIn.digest (StandIn.encodeTx sampleTx) ++
      StandIn.digest (StandIn.encodeTx (StandIn.plainTx 2))) }

/-- The opening of the first transaction, under an answer of the sender's choice. -/
def sampleResponse (domainName : Bytes) (records : List Record) : DNSProofResponse :=
  { domainName, records, transaction := sampleTx, blockHeader := sampleBlock.header
    proof := {
      txHash := StandIn.digest (StandIn.encodeTx sampleTx)
      proofPath := [StandIn.digest (StandIn.encodeTx (StandIn.plainTx 2))]
      directions := [true], merkleRoot := [] } }

theorem sampleBlock_honest : HonestRoot (.standIn fun _ => none) sampleBlock :=
  Or.inl (by decide +kernel)

end Bdns.Network
