import Bdns.Gateway.Server

/-!
# Proof responses at a light node

A light node checks an answer to a domain query with `HandleDNSProof` (answers of peers) or
`HandleDNSProofGRPC` (answers of gateways). Both take an index from the answer and read the header
chain at it, and both walk a path of siblings with one direction for each. Neither guards the two
accesses: `waitForHeader` compares the index with the length of the chain only, so that a negative
index passes (`waitForHeader_eq_error_iff`), and `VerifyMerkleProof` reads a direction for every
sibling (`verifyMerkleProof_eq_error_iff`).
-/

namespace Bdns.Gateway

open Lib Blockchain Network

/-- `pb.DomainQueryResponse` at its receiver, where inner messages can be missing. -/
structure ReceivedResponse where
  proof : Option ProofMessage
  blockHeader : Option BlockHeader

def kConfirmations : Int64 := 6

/-- `HandleDNSProofGRPC`. The node has no block store at first (`blockchain` is nil), and the
store can be empty. -/
def handleDNSProofGRPC (E : External) (polls : List (List BlockHeader))
    (blockchain : Option Blockchain.Blockchain) : Option ReceivedResponse → Go Bool
  | some ⟨some proof, some blockHeader⟩ => do
    match ← waitForHeader blockHeader.index polls with
    | none => pure false
    | some header =>
      if header.hash ≠ blockHeader.hash then pure false
      else
        if ← verifyMerkleProof E (some
          { merkleRoot := header.merkleRoot, txHash := proof.txHash
            proofPath := proof.proofPath, directions := proof.directions })
        then
          match blockchain.bind (·.getLatestBlock) with
          | none => throw .nilDereference
          | some latestBlock => pure (decide (kConfirmations ≤ latestBlock.index - blockHeader.index))
        else pure false
  | _ => pure false

/-! ## The two accesses -/

section Accesses

variable {E : External} {polls : List (List BlockHeader)} {index : Int64}

/-- At a negative index the first look at the chain panics, however long the chain is. -/
theorem waitForHeader_of_neg (hNeg : index < 0) (hPolls : polls ≠ []) :
    waitForHeader index polls = .error .indexOutOfRange := by
  obtain ⟨headerChain, polls, rfl⟩ := List.exists_cons_of_ne_nil hPolls
  have hBelow : index.toInt < headerChain.length := by
    have : index.toInt < 0 := Int64.lt_iff_toInt_lt.mp hNeg
    omega
  rw [waitForHeader, if_pos hBelow, if_pos hNeg]
  rfl

theorem exists_waitForHeader (hIndex : polls ≠ [] → 0 ≤ index) :
    ∃ found, waitForHeader index polls = .ok found := by
  induction polls with
  | nil => exact ⟨none, rfl⟩
  | cons headerChain polls ih =>
    have hNonneg := hIndex (List.cons_ne_nil _ _)
    rw [waitForHeader]
    split
    · rename_i hBelow
      have : 0 ≤ index.toInt := Int64.le_iff_toInt_le.mp hNonneg
      rw [if_neg (Int64.not_lt.mpr hNonneg), List.getElem?_eq_getElem (by omega)]
      exact ⟨_, rfl⟩
    · exact ih fun _ => hNonneg

theorem verifyLoop_of_short {current : Bytes} {path : List Bytes} {dirs : List Bool}
    (hShort : dirs.length < path.length) :
    verifyLoop E current path dirs = .error .indexOutOfRange := by
  induction path generalizing current dirs with
  | nil => exact absurd hShort (Nat.not_lt_zero _)
  | cons sibling path ih =>
    cases dirs with
    | nil => rfl
    | cons right dirs => exact ih (Nat.lt_of_succ_lt_succ hShort)

theorem verifyMerkleProof_of_short {proof : MerkleProof}
    (hShort : proof.directions.length < proof.proofPath.length) :
    verifyMerkleProof E (some proof) = .error .indexOutOfRange := by
  rw [verifyMerkleProof, verifyLoop_of_short hShort]
  rfl

theorem exists_verifyMerkleProof {proof : MerkleProof}
    (hLength : proof.proofPath.length ≤ proof.directions.length) :
    ∃ verified, verifyMerkleProof E (some proof) = .ok verified :=
  ⟨_, bind_eq_ok.mpr ⟨_, verifyLoop_eq_ok.mpr ⟨hLength, rfl⟩, rfl⟩⟩

end Accesses

/-! ## The checks -/

/-- Both accesses of a check are inside their slices: the index is not negative, and where the
header at the index is the one of the answer, there is a direction for every sibling. -/
def InRange (polls : List (List BlockHeader)) (blockHeader : BlockHeader) (proofPath : List Bytes)
    (directions : List Bool) : Prop :=
  (polls ≠ [] → 0 ≤ blockHeader.index) ∧
    ∀ header, waitForHeader blockHeader.index polls = .ok (some header) →
      header.hash = blockHeader.hash → proofPath.length ≤ directions.length

/-- The part that the two checks share: a header is awaited and compared, and the proof is verified
against its root. `after` is what they do with the outcome. -/
def checkProof {α : Type} (E : External) (polls : List (List BlockHeader))
    (blockHeader : BlockHeader) (txHash : Bytes) (proofPath : List Bytes) (directions : List Bool)
    (refused : α) (after : Bool → Go α) : Go α := do
  match ← waitForHeader blockHeader.index polls with
  | none => pure refused
  | some header =>
    if header.hash ≠ blockHeader.hash then pure refused
    else
      let verified ← verifyMerkleProof E (some
        { merkleRoot := header.merkleRoot, txHash, proofPath, directions })
      after verified

/-- A check reads outside a slice exactly if one of the two accesses is out of range. -/
theorem checkProof_ne_error_iff {α : Type} {E : External} {polls : List (List BlockHeader)}
    {blockHeader : BlockHeader} {txHash : Bytes} {proofPath : List Bytes} {directions : List Bool}
    {refused : α} {after : Bool → Go α}
    (hAfter : ∀ verified, after verified ≠ .error .indexOutOfRange) :
    checkProof E polls blockHeader txHash proofPath directions refused after ≠
        .error .indexOutOfRange ↔
      InRange polls blockHeader proofPath directions := by
  unfold checkProof InRange
  by_cases hIndex : polls ≠ [] → 0 ≤ blockHeader.index
  · obtain ⟨found, hFound⟩ := @exists_waitForHeader polls _ hIndex
    rw [hFound]
    cases found with
    | none => exact ⟨fun _ => ⟨hIndex, fun _ h => by simp at h⟩, fun _ h => by cases h⟩
    | some header =>
      by_cases hHash : header.hash = blockHeader.hash
      · by_cases hLength : proofPath.length ≤ directions.length
        · obtain ⟨verified, hVerified⟩ := @exists_verifyMerkleProof E
            { merkleRoot := header.merkleRoot, txHash, proofPath, directions } hLength
          have hRest := hAfter verified
          refine ⟨fun _ => ⟨hIndex, fun _ _ _ => hLength⟩, fun _ => ?_⟩
          simpa [bind, Except.bind, hHash, hVerified] using hRest
        · have hPanic := @verifyMerkleProof_of_short E
            { merkleRoot := header.merkleRoot, txHash, proofPath, directions }
            (Nat.not_le.mp hLength)
          simp [bind, Except.bind, hHash, hPanic, hLength]
      · refine ⟨fun _ => ⟨hIndex, fun header' h hSame => ?_⟩, fun _ => ?_⟩
        · obtain rfl := Option.some.inj (Except.ok.inj h)
          exact absurd hSame hHash
        · simp only [bind, Except.bind, ne_eq, hHash, not_false_eq_true, if_true]
          exact fun h => by cases h
  · obtain ⟨hPolls, hNeg⟩ := Classical.not_imp.mp hIndex
    rw [waitForHeader_of_neg (Int64.not_le.mp hNeg) hPolls]
    exact ⟨fun h => absurd rfl h, fun h => absurd h.1 hIndex⟩

theorem handleDNSProof_eq_checkProof {E : External} {polls : List (List BlockHeader)} {now : Int}
    {cache : Cache} {response : DNSProofResponse} :
    handleDNSProof E false polls now cache response =
      checkProof E polls response.blockHeader response.proof.txHash response.proof.proofPath
        response.proof.directions cache fun verified =>
          if verified then
            let aRecords := filterByType response.records (utf8 "A")
            if 0 < aRecords.length then
              pure (setToCache cache now response.domainName (utf8 "A") aRecords)
            else pure cache
          else pure cache :=
  rfl

theorem handleDNSProofGRPC_eq_checkProof {E : External} {polls : List (List BlockHeader)}
    {blockchain : Option Blockchain.Blockchain} {proof : ProofMessage} {blockHeader : BlockHeader} :
    handleDNSProofGRPC E polls blockchain (some ⟨some proof, some blockHeader⟩) =
      checkProof E polls blockHeader proof.txHash proof.proofPath proof.directions false
        fun verified =>
          if verified then
            match blockchain.bind (·.getLatestBlock) with
            | none => throw .nilDereference
            | some latestBlock =>
              pure (decide (kConfirmations ≤ latestBlock.index - blockHeader.index))
          else pure false :=
  rfl

/-- **When an answer is checked without reading outside a slice**, whatever the chain and the
answer hold: for an answer of a peer, and for one of a gateway. -/
theorem proofResponse_inRange_iff (E : External) (polls : List (List BlockHeader)) (now : Int)
    (cache : Cache) (response : DNSProofResponse) (blockchain : Option Blockchain.Blockchain)
    (received : Option ReceivedResponse) :
    (handleDNSProof E false polls now cache response ≠ .error .indexOutOfRange ↔
      InRange polls response.blockHeader response.proof.proofPath response.proof.directions) ∧
    (handleDNSProofGRPC E polls blockchain received ≠ .error .indexOutOfRange ↔
      ∀ proof blockHeader, received = some ⟨some proof, some blockHeader⟩ →
        InRange polls blockHeader proof.proofPath proof.directions) := by
  constructor
  · rw [handleDNSProof_eq_checkProof]
    apply checkProof_ne_error_iff
    intro verified
    dsimp only
    split
    · split <;> exact fun h => by cases h
    · exact fun h => by cases h
  · match received with
    | none => simp [handleDNSProofGRPC, pure, Except.pure]
    | some ⟨none, _⟩ => simp [handleDNSProofGRPC, pure, Except.pure]
    | some ⟨some _, none⟩ => simp [handleDNSProofGRPC, pure, Except.pure]
    | some ⟨some proof, some blockHeader⟩ =>
      rw [handleDNSProofGRPC_eq_checkProof]
      rw [checkProof_ne_error_iff]
      · simp
      · intro verified
        split
        · split <;> exact fun h => by cases h
        · exact fun h => by cases h

/-- The header of the genesis block, with an index below all indices. -/
def belowGenesis : BlockHeader := { sampleGenesis.header with index := -1 }

/-- An answer with a negative index, and one with a sibling and no direction for it, take down a
light node that holds the header of the genesis block. -/
theorem proofResponse_panics :
    (handleDNSProof (.standIn fun _ => none) false [[sampleGenesis.header]] 0 (fun _ => none)
        ⟨[], [], sampleTx, ⟨[], [], [], []⟩, belowGenesis⟩).map (· ([], [])) =
        .error .indexOutOfRange ∧
      (handleDNSProof (.standIn fun _ => none) false [[sampleGenesis.header]] 0 (fun _ => none)
        ⟨[], [], sampleTx, ⟨[], [[1]], [], []⟩, sampleGenesis.header⟩).map (· ([], [])) =
        .error .indexOutOfRange ∧
      handleDNSProofGRPC (.standIn fun _ => none) [[sampleGenesis.header]] none
        (some ⟨some ⟨[], [], []⟩, some belowGenesis⟩) = .error .indexOutOfRange ∧
      handleDNSProofGRPC (.standIn fun _ => none) [[sampleGenesis.header]] none
        (some ⟨some ⟨[], [[1]], []⟩, some sampleGenesis.header⟩) = .error .indexOutOfRange := by
  decide +kernel

end Bdns.Gateway
