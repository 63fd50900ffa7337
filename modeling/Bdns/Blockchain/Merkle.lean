import Bdns.Blockchain.Block
import Bdns.Lib.HashTree

/-!
# Merkle roots and Merkle proofs

Two builders work on the transactions of a block. `NewMerkleTree` (`merkle_tree.go`), whose
root goes into the header, pads an odd list of leaves once and from then on drops a last
node without a neighbour. `GenerateMerkleProof` (`block.go`) pads every odd level.
-/

namespace Bdns.Blockchain

open Lib

/-! ## The root of a block -/

inductive MerkleNode where
  | leaf (data : Bytes)
  | node (left right : MerkleNode) (data : Bytes)

def MerkleNode.data : MerkleNode → Bytes
  | leaf data => data
  | node _ _ data => data

/-- `NewMerkleNode`, with the two children given or both nil. -/
def newMerkleNode (E : External) : Option (MerkleNode × MerkleNode) → Bytes → MerkleNode
  | none, data => .leaf (E.sha256 data)
  | some (left, right), _ => .node left right (E.sha256 (left.data ++ right.data))

/-- `NewMerkleTree`: the root node, or nil for no data. -/
def newMerkleTree (E : External) (data : List Bytes) : Option MerkleNode :=
  if data.length = 0 then none
  else
    let nodes := (padOdd data).map (newMerkleNode E none)
    (levels (pairUp fun left right => newMerkleNode E (some (left, right)) []) nodes.length
      nodes).head?

/-- `SetupMerkleTree`: a block without transactions has a nil tree. -/
def setupMerkleTree (E : External) (transactions : List Transaction) : Go Bytes :=
  match newMerkleTree E (transactions.map E.gobTx) with
  | none => throw .nilDereference
  | some rootNode => pure rootNode.data

/-! ## Proofs -/

structure MerkleProof where
  txHash : Bytes
  proofPath : List Bytes
  /-- `true` where the sibling stands on the right. -/
  directions : List Bool
  merkleRoot : Bytes
  deriving DecidableEq

/-- The loop of `GenerateMerkleProof`: the last level, the siblings and their sides. -/
def proofLoop (E : External) : Nat → List Bytes → Nat → Go (List Bytes × List Bytes × List Bool)
  | 0, level, _ => pure (level, [], [])
  | fuel + 1, level, index =>
    if level.length ≤ 1 then pure (level, [], [])
    else
      match (padOdd level)[if index % 2 = 0 then index + 1 else index - 1]? with
      | none => throw .indexOutOfRange
      | some sibling => do
        let nextLevel := pairUp (fun a b => E.sha256 (a ++ b)) (padOdd level)
        let (last, proofPath, directions) ← proofLoop E fuel nextLevel (index / 2)
        pure (last, sibling :: proofPath, decide (index % 2 = 0) :: directions)

def generateMerkleProof (E : External) (transactions : List Transaction) (txIndex : Int) :
    Go (Option MerkleProof) :=
  if txIndex < 0 ∨ transactions.length ≤ txIndex then pure none
  else
    let leaves := transactions.map fun tx => E.sha256 (E.gobTx tx)
    match leaves[txIndex.toNat]? with
    | none => throw .indexOutOfRange
    | some txHash => do
      let (last, proofPath, directions) ← proofLoop E leaves.length leaves txIndex.toNat
      match last.head? with
      | none => throw .indexOutOfRange
      | some merkleRoot => pure (some { txHash, proofPath, directions, merkleRoot })

/-- The loop of `VerifyMerkleProof`, which indexes the directions by position in the path. -/
def verifyLoop (E : External) : Bytes → List Bytes → List Bool → Go Bytes
  | currentHash, [], _ => pure currentHash
  | _, _ :: _, [] => throw .indexOutOfRange
  | currentHash, sibling :: proofPath, right :: directions =>
    verifyLoop E (HashTree.stepUp E.sha256 currentHash sibling right) proofPath directions

def verifyMerkleProof (E : External) : Option MerkleProof → Go Bool
  | none => pure false
  | some proof => do
    let currentHash ← verifyLoop E proof.txHash proof.proofPath proof.directions
    pure (currentHash == proof.merkleRoot)

/-! ## The trees behind the two builders -/

/-- The tree whose root goes into the header. -/
def rootTree (data : List Bytes) : Option HashTree :=
  (levels (pairUp .fork) (padOdd data).length ((padOdd data).map .leaf)).head?

/-- The tree along which proofs are made. -/
def proofTree (data : List Bytes) : Option HashTree :=
  (levels (pairUp .fork ∘ padOdd) data.length (data.map .leaf)).head?

/-- The strings that reach the digest of a tree's root. -/
def treeInputs (E : External) (t : Option HashTree) : List Bytes :=
  (t.map (HashTree.hashed E.sha256)).getD []

/-- The digest of two neighbours. -/
def joinHash (E : External) (a b : Bytes) : Bytes := E.sha256 (a ++ b)

theorem root_levels (E : External) (fuel : Nat) (data : List Bytes) :
    (levels (pairUp .fork) fuel (data.map .leaf)).map (HashTree.root E.sha256) =
      levels (pairUp (joinHash E)) fuel (data.map E.sha256) := by
  have hJoin : ∀ a b : HashTree, (HashTree.fork a b).root E.sha256 =
      joinHash E (a.root E.sha256) (b.root E.sha256) := fun _ _ => rfl
  rw [map_levels (map_pairUp hJoin), List.map_map]
  rfl

theorem root_levels_padOdd (E : External) (fuel : Nat) (data : List Bytes) :
    (levels (pairUp .fork ∘ padOdd) fuel (data.map .leaf)).map (HashTree.root E.sha256) =
      levels (pairUp (joinHash E) ∘ padOdd) fuel (data.map E.sha256) := by
  have hStep : ∀ ts : List HashTree,
      ((pairUp .fork ∘ padOdd) ts).map (HashTree.root E.sha256) =
        (pairUp (joinHash E) ∘ padOdd) (ts.map (HashTree.root E.sha256)) := by
    intro ts
    rw [Function.comp_apply, Function.comp_apply, ← map_padOdd]
    exact map_pairUp (fun _ _ => rfl) _
  rw [map_levels hStep, List.map_map]
  rfl

/-- The rounds end with the root alone. -/
theorem levels_rootTree {data : List Bytes} (hNe : 0 < data.length) :
    ∃ t, rootTree data = some t ∧
      levels (pairUp .fork) (padOdd data).length ((padOdd data).map .leaf) = [t] := by
  have hPad : 0 < (padOdd data).length := by
    rw [length_padOdd]
    omega
  obtain ⟨k, hLow, hHigh⟩ := exists_log_two hPad
  have hLen : (levels (pairUp HashTree.fork) (padOdd data).length
      ((padOdd data).map .leaf)).length = 1 := by
    refine length_levels_pairUp (le_of_two_pow_lt (k := k) (by omega)) ?_ ?_ <;>
      rwa [List.length_map]
  obtain ⟨t, ht⟩ := List.length_eq_one_iff.mp hLen
  exact ⟨t, by rw [rootTree, ht]; rfl, ht⟩

/-- The header's root is the root of `rootTree`. -/
theorem setupMerkleTree_eq (E : External) {txs : List Transaction} {t : HashTree}
    (hNe : 0 < txs.length) (hTree : rootTree (txs.map E.gobTx) = some t) :
    setupMerkleTree E txs = .ok (t.root E.sha256) := by
  have hData : (newMerkleTree E (txs.map E.gobTx)).map MerkleNode.data =
      (rootTree (txs.map E.gobTx)).map (HashTree.root E.sha256) := by
    have hJoin : ∀ a b : MerkleNode, (newMerkleNode E (some (a, b)) []).data =
        joinHash E a.data b.data := fun _ _ => rfl
    rw [newMerkleTree, if_neg (by rw [List.length_map]; omega), rootTree, ← List.head?_map,
      ← List.head?_map, root_levels, map_levels (map_pairUp hJoin), List.map_map, List.length_map]
    rfl
  rw [hTree] at hData
  unfold setupMerkleTree
  cases hNode : newMerkleTree E (txs.map E.gobTx) with
  | none => simp [hNode] at hData
  | some node => simpa [hNode, pure, Except.pure] using hData

/-! ## What the proof loop returns -/

/-- The siblings that `proofLoop` records lead from the indexed digest to the last level. -/
theorem proofLoop_spec (E : External) {fuel index : Nat} {level : List Bytes} {digest : Bytes}
    (hFuel : level.length ≤ fuel) (hDigest : level[index]? = some digest) :
    ∃ path dirs, proofLoop E fuel level index =
        .ok (levels (pairUp (joinHash E) ∘ padOdd) fuel level, path, dirs) ∧
      path.length = dirs.length ∧
      (levels (pairUp (joinHash E) ∘ padOdd) fuel level).head? =
        some (HashTree.walk E.sha256 digest (path.zip dirs)) := by
  have hIndex : index < level.length := (List.getElem?_eq_some_iff.mp hDigest).1
  induction fuel generalizing level index digest with
  | zero => omega
  | succ fuel ih =>
    unfold proofLoop levels
    by_cases hShort : level.length ≤ 1
    · rw [if_pos hShort, if_pos hShort]
      have hZero : index = 0 := by omega
      subst hZero
      exact ⟨[], [], rfl, rfl, by rw [List.head?_eq_getElem?, hDigest]; rfl⟩
    · rw [if_neg hShort, if_neg hShort]
      have hPadLen := length_padOdd level
      have hPadded : (padOdd level)[index]? = some digest := by
        rw [← hDigest]
        exact getElem?_padOdd hIndex
      -- the sibling of the padded level and the parent in the next one
      obtain ⟨sibling, hSibling⟩ : ∃ s,
          (padOdd level)[if index % 2 = 0 then index + 1 else index - 1]? = some s :=
        ⟨_, List.getElem?_eq_getElem (by split <;> omega)⟩
      have hParent : (pairUp (joinHash E) (padOdd level))[index / 2]? =
          some (HashTree.stepUp E.sha256 digest sibling (decide (index % 2 = 0))) := by
        rw [getElem?_pairUp]
        by_cases hEven : index % 2 = 0
        · rw [if_pos hEven] at hSibling
          rw [show 2 * (index / 2) = index by omega, hPadded, hSibling]
          simp [HashTree.stepUp, joinHash, hEven]
        · rw [if_neg hEven] at hSibling
          rw [show 2 * (index / 2) = index - 1 by omega, hSibling,
            show index - 1 + 1 = index by omega, hPadded]
          simp [HashTree.stepUp, joinHash, hEven]
      have hNextLen := length_pairUp (joinHash E) (padOdd level)
      obtain ⟨path, dirs, hLoop, hLen, hHead⟩ := ih (by omega) hParent (by omega)
      refine ⟨sibling :: path, decide (index % 2 = 0) :: dirs, ?_, by simpa using hLen, ?_⟩
      · simp only [hSibling]
        exact bind_eq_ok.mpr ⟨_, hLoop, rfl⟩
      · rw [Function.comp_apply, hHead]
        rfl

/-- Walking needs a direction for every sibling, and nothing else can go wrong. -/
theorem verifyLoop_eq_ok {E : External} {current last : Bytes} {path : List Bytes}
    {dirs : List Bool} :
    verifyLoop E current path dirs = .ok last ↔
      path.length ≤ dirs.length ∧ HashTree.walk E.sha256 current (path.zip dirs) = last := by
  induction path generalizing current dirs with
  | nil => simp [verifyLoop, HashTree.walk]
  | cons sibling path ih =>
    cases dirs with
    | nil => simp [verifyLoop]
    | cons right dirs => simp [verifyLoop, HashTree.walk, ih]

/-- The proof for an index is the path of `proofTree` to that leaf. -/
theorem generateMerkleProof_eq (E : External) {txs : List Transaction} {i : Nat}
    (hi : i < txs.length) :
    ∃ t proof, proofTree (txs.map E.gobTx) = some t ∧
      generateMerkleProof E txs i = .ok (some proof) ∧
      verifyLoop E proof.txHash proof.proofPath proof.directions = .ok (t.root E.sha256) := by
  obtain ⟨digest, hDigest⟩ : ∃ d, (txs.map fun tx => E.sha256 (E.gobTx tx))[i]? = some d :=
    ⟨_, List.getElem?_eq_getElem (by simpa using hi)⟩
  obtain ⟨path, dirs, hLoop, hLen, hHead⟩ := proofLoop_spec E (Nat.le_refl _) hDigest
  have hRoot : (proofTree (txs.map E.gobTx)).map (HashTree.root E.sha256) =
      some (HashTree.walk E.sha256 digest (path.zip dirs)) := by
    rw [proofTree, ← List.head?_map, root_levels_padOdd, ← hHead]
    simp [List.map_map, Function.comp_def]
  obtain ⟨t, hTree, hEq⟩ := Option.map_eq_some_iff.mp hRoot
  refine ⟨t, ⟨digest, path, dirs, HashTree.walk E.sha256 digest (path.zip dirs)⟩, hTree, ?_, ?_⟩
  · unfold generateMerkleProof
    rw [if_neg (by omega)]
    simp only [Int.toNat_natCast, hDigest]
    refine bind_eq_ok.mpr ⟨_, hLoop, ?_⟩
    simp only [hHead]
    rfl
  · exact verifyLoop_eq_ok.mpr ⟨hLen.le, hEq.symm⟩

/-- The proof for an index is one for the transaction at the index. -/
theorem exists_generateMerkleProof (E : External) {txs : List Transaction} {i : Nat}
    {tx : Transaction} (hTx : txs[i]? = some tx) :
    ∃ proof, generateMerkleProof E txs i = .ok (some proof) ∧
      proof.txHash = E.sha256 (E.gobTx tx) := by
  have hi : i < txs.length := (List.getElem?_eq_some_iff.mp hTx).1
  have hDigest : (txs.map fun tx => E.sha256 (E.gobTx tx))[i]? = some (E.sha256 (E.gobTx tx)) := by
    rw [List.getElem?_map, hTx]
    rfl
  obtain ⟨path, dirs, hLoop, -, hHead⟩ := proofLoop_spec E (Nat.le_refl _) hDigest
  refine ⟨⟨_, path, dirs, HashTree.walk E.sha256 (E.sha256 (E.gobTx tx)) (path.zip dirs)⟩, ?_, rfl⟩
  unfold generateMerkleProof
  rw [if_neg (by omega)]
  simp only [Int.toNat_natCast, hDigest]
  refine bind_eq_ok.mpr ⟨_, hLoop, ?_⟩
  simp only [hHead]
  rfl

end Bdns.Blockchain
