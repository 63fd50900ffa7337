import Bdns.Blockchain.Merkle
import Bdns.Gateway.Pool
import Bdns.Network.LightNode
import Bdns.Network.Pool

/-!
# Answers to domain queries

A full node answers a query for a domain with a Merkle proof for the domain's transaction:
`QueryDomain` over gRPC (`gateway/server.go`) and `HandleDNSQuery` over the network of peers
(`node_helper.go`). Both take block and position of the transaction from the index, and the block
from the store. Light nodes get their headers from streams (`SubscribeHeaders`).
-/

namespace Bdns.Gateway

open Lib Blockchain Network Index

/-- `pb.MerkleProof`. -/
structure ProofMessage where
  txHash : Bytes
  proofPath : List Bytes
  directions : List Bool
  deriving DecidableEq

/-- `pb.DomainQueryResponse`; its header has the fields of a block header. -/
structure DomainQueryResponse where
  domainName : Bytes
  ipAddress : Bytes
  proof : ProofMessage
  blockHeader : BlockHeader
  deriving DecidableEq

/-- The value of the first A record. -/
def firstAddress (records : List Record) : Bytes :=
  ((records.find? fun r => r.type = utf8 "A").map Record.value).getD []

/-- `GetDomainPhase` at the time of a query. A slot interval of zero makes the division panic. -/
def phaseAt (clock : Clock) (now expirySlot : Int64) : Go Phase :=
  if clock.slotInterval = 0 then throw .divideByZero
  else pure (getDomainPhase (clock.slotAt now) expirySlot (86400 / clock.slotInterval))

/-- `fuel` bounds the walk through the block store. -/
def queryDomain (E : External) (clock : Clock) (now : Int64) (fuel : Nat) (n : Node)
    (domainName : Bytes) : Go (Except RpcError DomainQueryResponse) :=
  match n.state.index.getDomain E domainName with
  | none => pure (.error (.status .notFound (utf8 "domain not found: " ++ domainName)))
  | some tx => do
    let phase ← phaseAt clock now tx.expirySlot
    if phase ≠ .active then
      pure (.error (.status .notFound
        (utf8 "domain not active: " ++ domainName ++ utf8 " (phase=" ++ phase.text ++ utf8 ")")))
    else
      match n.state.index.getTxLocation E domainName with
      | none =>
        pure (.error (.status .internal (utf8 "tx location missing for " ++ domainName)))
      | some loc =>
        match ← n.blockchain.getBlockByIndex fuel loc.blockIndex with
        | none =>
          pure (.error (.status .internal
            (utf8 "block " ++ decimalInt loc.blockIndex.toInt ++ utf8 " not found")))
        | some block =>
          match ← generateMerkleProof E block.transactions loc.txIndex with
          | none => pure (.error (.status .internal (utf8 "failed to generate Merkle proof")))
          | some proof =>
            pure (.ok
              { domainName, ipAddress := firstAddress tx.records
                proof := ⟨proof.txHash, proof.proofPath, proof.directions⟩
                blockHeader := block.header })

/-- `HandleDNSQuery` of a full node: the response that it sends, if it sends one. -/
def handleDNSQuery (E : External) (clock : Clock) (now : Int64) (fuel : Nat) (n : Node)
    (domainName : Bytes) : Go (Option DNSProofResponse) :=
  match n.state.index.getDomain E domainName with
  | none => pure none
  | some tx => do
    let phase ← phaseAt clock now tx.expirySlot
    if phase ≠ .active then pure none
    else
      match n.state.index.getTxLocation E domainName with
      | none => pure none
      | some loc =>
        match ← n.blockchain.getBlockByIndex fuel loc.blockIndex with
        | none => pure none
        | some block =>
          match ← generateMerkleProof E block.transactions loc.txIndex with
          | none => pure none
          | some proof =>
            pure (some
              { domainName, records := tx.records, transaction := tx, proof
                blockHeader := block.header })

section Served

variable {E : External} {clock : Clock} {now : Int64} {fuel : Nat} {n : Node} {d : Bytes}
  {t tx : Transaction} {loc : TxLocation} {block : Block}

/-- For an active domain both answers come with a proof for the transaction at its location. -/
theorem served_at_location (hClock : clock.slotInterval ≠ 0)
    (hDomain : n.state.index.getDomain E d = some t)
    (hActive : getDomainPhase (clock.slotAt now) t.expirySlot (86400 / clock.slotInterval) =
      .active)
    (hLoc : n.state.index.getTxLocation E d = some loc)
    (hBlock : n.blockchain.getBlockByIndex fuel loc.blockIndex = .ok (some block))
    (hTx : block.transactions[loc.txIndex]? = some tx) :
    ∃ proof : MerkleProof, proof.txHash = E.sha256 (E.gobTx tx) ∧
      queryDomain E clock now fuel n d = .ok (.ok
        ⟨d, firstAddress t.records, ⟨proof.txHash, proof.proofPath, proof.directions⟩,
          block.header⟩) ∧
      handleDNSQuery E clock now fuel n d =
        .ok (some ⟨d, t.records, t, proof, block.header⟩) := by
  obtain ⟨proof, hProof, hHash⟩ := exists_generateMerkleProof E hTx
  have hPhase : phaseAt clock now t.expirySlot = .ok .active := by
    unfold phaseAt
    rw [if_neg hClock, hActive]
    rfl
  refine ⟨proof, hHash, ?_, ?_⟩
  · simp only [queryDomain, hDomain, hPhase, bind, Except.bind, ne_eq, not_true_eq_false, if_false,
      hLoc, hBlock, hProof]
    rfl
  · simp only [handleDNSQuery, hDomain, hPhase, bind, Except.bind, ne_eq, not_true_eq_false, if_false,
      hLoc, hBlock, hProof]
    rfl

end Served

/-! ## Header streams -/

/-- The replay of stored headers, up to the tip at the start. `bcAt i` is the store when the loop
comes to index `i`, `walk` bounds the walk through it, and `sends` the rounds until the client
leaves. -/
def replayHeaders (walk : Nat) (bcAt : Int64 → Blockchain.Blockchain) (tip : Int64) :
    Nat → Int64 → Go (List BlockHeader)
  | 0, _ => pure []
  | sends + 1, i =>
    if i ≤ tip then do
      match ← (bcAt i).getBlockByIndex walk i with
      | none => replayHeaders walk bcAt tip sends (i + 1)
      | some block => return block.header :: (← replayHeaders walk bcAt tip sends (i + 1))
    else pure []

/-- What `SubscribeHeaders` sends. The store is `bc` at first; `live` are the headers that
`BroadcastHeader` puts into the channel and does not drop. -/
def subscribeHeaders (walk : Nat) (bc : Blockchain.Blockchain)
    (bcAt : Int64 → Blockchain.Blockchain) (sends : Nat) (live : List BlockHeader)
    (startIndex : Int64) : Go (List BlockHeader) :=
  if 0 < startIndex then
    match bc.getLatestBlock with
    | none => throw .nilDereference
    | some latestBlock =>
      return (← replayHeaders walk bcAt latestBlock.index sends startIndex) ++ live
  else pure live

section Sent

variable {walk sends : Nat} {bc : Blockchain.Blockchain} {bcAt : Int64 → Blockchain.Blockchain}
  {live sent : List BlockHeader}

/-- Replayed headers are those of stored blocks. -/
theorem header_of_replayHeaders {tip i : Int64}
    (h : replayHeaders walk bcAt tip sends i = .ok sent) : ∀ header ∈ sent,
      ∃ i b, (bcAt i).getBlockByIndex walk i = .ok (some b) ∧ b.header = header := by
  induction sends generalizing i sent with
  | zero =>
    obtain rfl := pure_eq_ok.mp h
    simp
  | succ sends ih =>
    unfold replayHeaders at h
    split at h
    · obtain ⟨found, hFound, h⟩ := bind_eq_ok.mp h
      cases found with
      | none => exact ih h
      | some block =>
        obtain ⟨rest, hRest, h⟩ := bind_eq_ok.mp h
        obtain rfl := pure_eq_ok.mp h
        intro header hMem
        rcases List.mem_cons.mp hMem with rfl | hMem
        · exact ⟨i, block, hFound, rfl⟩
        · exact ih hRest header hMem
    · obtain rfl := pure_eq_ok.mp h
      simp

theorem header_of_subscribeHeaders {startIndex : Int64}
    (hSent : subscribeHeaders walk bc bcAt sends live startIndex = .ok sent) :
    ∀ header ∈ sent, header ∈ live ∨
      ∃ i b, (bcAt i).getBlockByIndex walk i = .ok (some b) ∧ b.header = header := by
  intro header hMem
  unfold subscribeHeaders at hSent
  split at hSent
  · split at hSent
    · exact absurd hSent (by simp)
    · obtain ⟨replayed, hReplayed, hSent⟩ := bind_eq_ok.mp hSent
      obtain rfl := pure_eq_ok.mp hSent
      rcases List.mem_append.mp hMem with hOld | hLive
      · exact .inr (header_of_replayHeaders hReplayed header hOld)
      · exact .inl hLive
  · obtain rfl := pure_eq_ok.mp hSent
    exact .inl hMem

end Sent

end Bdns.Gateway
