import Bdns.Blockchain.Merkle
import Bdns.Blockchain.StandIn

/-!
# Proofs of one block agree with each other

`GenerateMerkleProof` pads every odd level and halves the index from level to level. The levels do
not depend on the index, so all proofs of a block end in one root; each round records one sibling
and one side, and there are as many rounds as it takes to halve the number of transactions down to
one (`length_proofLoop`).
-/

namespace Bdns.Blockchain

open Lib

/-- The proof loop takes one sibling and one side from each level it halves. -/
theorem length_proofLoop (E : External) {fuel index : Nat} {level last path : List Bytes}
    {dirs : List Bool} (hFuel : level.length ≤ fuel)
    (hLoop : proofLoop E fuel level index = .ok (last, path, dirs)) :
    path.length = Nat.clog 2 level.length ∧ dirs.length = Nat.clog 2 level.length := by
  induction fuel generalizing index level last path dirs with
  | zero =>
    obtain ⟨-, rfl, rfl⟩ := by simpa [proofLoop] using pure_eq_ok.mp hLoop
    rw [Nat.clog_of_right_le_one (by omega)]
    exact ⟨rfl, rfl⟩
  | succ fuel ih =>
    rw [proofLoop] at hLoop
    by_cases hShort : level.length ≤ 1
    · rw [if_pos hShort] at hLoop
      obtain ⟨-, rfl, rfl⟩ := by simpa using pure_eq_ok.mp hLoop
      rw [Nat.clog_of_right_le_one hShort]
      exact ⟨rfl, rfl⟩
    · rw [if_neg hShort] at hLoop
      -- the padded level has one pair for every two entries, rounded up
      have hNext : (pairUp (joinHash E) (padOdd level)).length = (level.length + 2 - 1) / 2 := by
        rw [length_pairUp, length_padOdd]
        omega
      dsimp only at hLoop
      split at hLoop
      · cases hLoop
      · obtain ⟨⟨rest, path', dirs'⟩, hRest, hLast⟩ := bind_eq_ok.mp hLoop
        obtain ⟨hPath, hDirs⟩ := ih (hNext.le.trans (by omega)) hRest
        obtain ⟨-, rfl, rfl⟩ := by simpa using pure_eq_ok.mp hLast
        rw [Nat.clog_of_two_le (by decide) (by omega), ← hNext]
        exact ⟨congrArg (· + 1) hPath, congrArg (· + 1) hDirs⟩

/-- The proof for the transaction at an index, with the last level of the loop. -/
theorem generateMerkleProof_eq_loop (E : External) {txs : List Transaction} {i : Nat}
    {tx : Transaction} (hTx : txs[i]? = some tx) :
    ∃ path dirs root, generateMerkleProof E txs i =
        .ok (some ⟨E.sha256 (E.gobTx tx), path, dirs, root⟩) ∧
      path.length = Nat.clog 2 txs.length ∧ dirs.length = Nat.clog 2 txs.length ∧
      (levels (pairUp (joinHash E) ∘ padOdd) txs.length
        (txs.map fun tx => E.sha256 (E.gobTx tx))).head? = some root ∧
      verifyLoop E (E.sha256 (E.gobTx tx)) path dirs = .ok root := by
  have hi : i < txs.length := (List.getElem?_eq_some_iff.mp hTx).1
  have hLength : (txs.map fun tx => E.sha256 (E.gobTx tx)).length = txs.length := List.length_map _
  have hDigest : (txs.map fun tx => E.sha256 (E.gobTx tx))[i]? = some (E.sha256 (E.gobTx tx)) := by
    rw [List.getElem?_map, hTx]
    rfl
  obtain ⟨path, dirs, hLoop, hSame, hHead⟩ := proofLoop_spec E hLength.le hDigest
  obtain ⟨hPath, hDirs⟩ := length_proofLoop E hLength.le hLoop
  rw [hLength] at hPath hDirs
  refine ⟨path, dirs, HashTree.walk E.sha256 (E.sha256 (E.gobTx tx)) (path.zip dirs), ?_, hPath,
    hDirs, hHead, verifyLoop_eq_ok.mpr ⟨hSame.le, rfl⟩⟩
  unfold generateMerkleProof
  rw [if_neg (by omega)]
  simp only [Int.toNat_natCast, hDigest, hLength]
  refine bind_eq_ok.mpr ⟨_, hLoop, ?_⟩
  simp only [hHead]
  rfl

/-- Every transaction of a block has a proof that verifies against its own root and is for the
digest of the transaction; path and sides have one entry for each halving of the block, and the root
is that of all other proofs. -/
theorem merkleProofs_self_consistent (E : External) (txs : List Transaction) :
    ∃ root, ∀ (i : Nat) (tx : Transaction), txs[i]? = some tx → ∃ proof,
      generateMerkleProof E txs i = .ok (some proof) ∧
        verifyMerkleProof E (some proof) = .ok true ∧
        proof.txHash = E.sha256 (E.gobTx tx) ∧
        proof.proofPath.length = Nat.clog 2 txs.length ∧
        proof.directions.length = Nat.clog 2 txs.length ∧
        proof.merkleRoot = root := by
  refine ⟨((levels (pairUp (joinHash E) ∘ padOdd) txs.length
    (txs.map fun tx => E.sha256 (E.gobTx tx))).head?).getD [], fun i tx hTx => ?_⟩
  obtain ⟨path, dirs, root, hProof, hPath, hDirs, hHead, hVerify⟩ :=
    generateMerkleProof_eq_loop E hTx
  refine ⟨_, hProof, ?_, rfl, hPath, hDirs, ?_⟩
  · refine bind_eq_ok.mpr ⟨root, hVerify, ?_⟩
    rw [beq_self_eq_true]
    rfl
  · rw [hHead]
    rfl

theorem merkleProofs_self_consistent_three :
    ∃ proof, generateMerkleProof (.standIn fun _ => none) ([1, 2, 3].map StandIn.plainTx) 2 =
        .ok (some proof) ∧
      verifyMerkleProof (.standIn fun _ => none) (some proof) = .ok true ∧
      proof.proofPath.length = 2 := by
  obtain ⟨root, hProofs⟩ := merkleProofs_self_consistent (.standIn fun _ => none)
    ([1, 2, 3].map StandIn.plainTx)
  obtain ⟨proof, hProof, hVerify, -, hPath, -, -⟩ := hProofs 2 (StandIn.plainTx 3) rfl
  exact ⟨proof, hProof, hVerify, hPath.trans (by decide +kernel)⟩

end Bdns.Blockchain
