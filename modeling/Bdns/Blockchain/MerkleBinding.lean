import Bdns.Blockchain.Merkle
import Bdns.Blockchain.StandIn

/-!
# What a Merkle root commits to, and when a Merkle proof meets it

Both questions have one answer in the number `n` of transactions: the root covers every
transaction, and agrees with the tree that proofs are made along, exactly when `n` rounded
up to an even number is a power of two (and, for proofs, `n` is at least two).
-/

namespace Bdns.Blockchain

open Lib

/-! ## Leaves -/

theorem leaves_pairUp {P : Bytes → Prop} {ts : List HashTree}
    (hAll : ∀ t ∈ ts, ∀ d ∈ t.leaves, P d) :
    ∀ t ∈ pairUp .fork ts, ∀ d ∈ t.leaves, P d := by
  fun_induction pairUp HashTree.fork ts with
  | case1 => simp
  | case2 a => simp
  | case3 a b rest ih =>
    intro t ht d hd
    rcases List.mem_cons.mp ht with rfl | ht
    · rcases List.mem_append.mp hd with hd | hd
      · exact hAll a (by simp) d hd
      · exact hAll b (by simp) d hd
    · exact ih (fun t ht => hAll t (by simp [ht])) t ht d hd

/-- What holds of the data at the leaves of a level holds of those of all later levels. -/
theorem leaves_levels {P : Bytes → Prop} {step : List HashTree → List HashTree}
    (hStep : ∀ ts, (∀ t ∈ ts, ∀ d ∈ t.leaves, P d) → ∀ t ∈ step ts, ∀ d ∈ t.leaves, P d)
    (fuel : Nat) {ts : List HashTree} (hAll : ∀ t ∈ ts, ∀ d ∈ t.leaves, P d) :
    ∀ t ∈ levels step fuel ts, ∀ d ∈ t.leaves, P d := by
  induction fuel generalizing ts with
  | zero => exact hAll
  | succ fuel ih =>
    unfold levels
    split
    · exact hAll
    · exact ih (hStep ts hAll)

theorem mem_of_mem_leaves_rootTree {data : List Bytes} {t : HashTree}
    (hTree : rootTree data = some t) : ∀ d ∈ t.leaves, d ∈ data := by
  refine leaves_levels (fun _ => leaves_pairUp) _ ?_ t (List.mem_of_head? hTree)
  intro t ht d hd
  obtain ⟨d', hd', rfl⟩ := List.mem_map.mp ht
  obtain rfl : d = d' := by simpa [HashTree.leaves] using hd
  exact mem_of_mem_padOdd hd'

theorem mem_of_mem_leaves_proofTree {data : List Bytes} {t : HashTree}
    (hTree : proofTree data = some t) : ∀ d ∈ t.leaves, d ∈ data := by
  refine leaves_levels (fun ts hAll => leaves_pairUp fun t ht => hAll t (mem_of_mem_padOdd ht)) _
    ?_ t (List.mem_of_head? hTree)
  intro t ht d hd
  obtain ⟨d', hd', rfl⟩ := List.mem_map.mp ht
  obtain rfl : d = d' := by simpa [HashTree.leaves] using hd
  exact hd'

/-- A serialised transaction is too long to be two digests. -/
theorem length_gobTx_ne (E : External) {txs : List Transaction} {d : Bytes}
    (hd : d ∈ txs.map E.gobTx) : d.length ≠ 2 * 32 := by
  obtain ⟨tx, -, rfl⟩ := List.mem_map.mp hd
  have := E.gobTx_long tx
  omega

/-! ## The root -/

theorem rootTree_injective {xs ys : List Bytes} {k : Nat} (hNe : 0 < xs.length)
    (hLen : xs.length = ys.length) (hPow : xs.length + xs.length % 2 = 2 ^ k)
    (h : rootTree xs = rootTree ys) : xs = ys := by
  obtain ⟨t, htx, hLevelsX⟩ := levels_rootTree hNe
  obtain ⟨t', hty, hLevelsY⟩ := levels_rootTree (hLen ▸ hNe)
  obtain rfl : t = t' := Option.some.inj (htx.symm.trans (h.trans hty))
  have hPadX : (padOdd xs).length = 2 ^ k := by rw [length_padOdd, hPow]
  have hPadY : (padOdd ys).length = 2 ^ k := by rw [length_padOdd, ← hLen, hPow]
  rw [hPadX] at hLevelsX
  rw [hPadY] at hLevelsY
  have hLeaves := levels_pairUp_injective HashTree.fork_injective (k.lt_two_pow_self).le
    (by rw [List.length_map, hPadX]) (by rw [List.length_map, hPadY])
    (hLevelsX.trans hLevelsY.symm)
  have hLeafInj : Function.Injective HashTree.leaf := fun _ _ h => HashTree.leaf.inj h
  exact padOdd_injective hLen (hLeafInj.list_map hLeaves)

/-- Where the padded number of leaves is no power of two, the last one does not reach the
root. -/
theorem rootTree_last_irrelevant {init : List Bytes}
    (hPow : ¬ ∃ k, (init.length + 1) + (init.length + 1) % 2 = 2 ^ k) (x y : Bytes) :
    rootTree (init ++ [x]) = rootTree (init ++ [y]) := by
  have hLenX : (padOdd (init ++ [x])).length = (init.length + 1) + (init.length + 1) % 2 := by
    rw [length_padOdd, List.length_append, List.length_singleton]
  have hLenY : (padOdd (init ++ [y])).length = (init.length + 1) + (init.length + 1) % 2 := by
    rw [length_padOdd, List.length_append, List.length_singleton]
  obtain ⟨k, hLow, hHigh⟩ := exists_log_two (n := (init.length + 1) + (init.length + 1) % 2)
    (by omega)
  -- the greatest power of two is even, so it leaves out the last two leaves
  have hShort : 2 ^ k ≤ init.length := by
    have hNe : (init.length + 1) + (init.length + 1) % 2 ≠ 2 ^ k := fun h => hPow ⟨k, h⟩
    cases k with
    | zero => omega
    | succ k =>
      rw [pow_succ] at hLow hNe ⊢
      omega
  have hTake : ∀ z : Bytes, ((padOdd (init ++ [z])).map HashTree.leaf).take (2 ^ k) =
      (init.map HashTree.leaf).take (2 ^ k) := by
    intro z
    rw [← List.map_take, ← List.map_take]
    congr 1
    unfold padOdd
    split
    · exact List.take_append_of_le_length hShort
    · rw [List.append_assoc]
      exact List.take_append_of_le_length hShort
  have hCut : ∀ z : Bytes, (padOdd (init ++ [z])).length =
      (init.length + 1) + (init.length + 1) % 2 →
      rootTree (init ++ [z]) = (levels (pairUp .fork) ((init.length + 1) + (init.length + 1) % 2)
        ((init.map .leaf).take (2 ^ k))).head? := by
    intro z hLen
    rw [rootTree, hLen, levels_pairUp_take (k := k) (le_of_two_pow_lt (by omega))
      (by rw [List.length_map]; omega) (by rw [List.length_map]; omega), hTake]
  rw [hCut x hLenX, hCut y hLenY]

/-- The strings hashed for the roots of all lists of `n` transactions of a set. -/
def rootInputsOver (E : External) (S : Set Transaction) (n : Nat) : Set Bytes :=
  {s | ∃ txs : List Transaction, txs.length = n ∧ (∀ tx ∈ txs, tx ∈ S) ∧
    s ∈ treeInputs E (rootTree (txs.map E.gobTx))}

/-- **What the root binds.** Over a set of at least two transactions, on which the hash does
not collide, equal roots of lists of length `n` give equal lists exactly when `n` rounded up
to an even number is a power of two. -/
theorem setupMerkleTree_binds_iff (E : External) {n : Nat} (hn : 0 < n) {S : Set Transaction}
    (hS : S.Nontrivial) (hInj : Set.InjOn E.sha256 (rootInputsOver E S n)) :
    (∀ xs ys : List Transaction, xs.length = n → ys.length = n →
      (∀ tx ∈ xs, tx ∈ S) → (∀ tx ∈ ys, tx ∈ S) →
      setupMerkleTree E xs = setupMerkleTree E ys → xs = ys) ↔ ∃ k, n + n % 2 = 2 ^ k := by
  constructor
  · intro hBinds
    by_contra hPow
    obtain ⟨a, ha, b, hb, hab⟩ := hS
    have hLists := hBinds (List.replicate (n - 1) a ++ [a]) (List.replicate (n - 1) a ++ [b])
      (by simp; omega) (by simp; omega)
      (fun tx htx => by
        rcases List.mem_append.mp htx with h | h
        · rwa [List.eq_of_mem_replicate h]
        · rwa [List.mem_singleton.mp h])
      (fun tx htx => by
        rcases List.mem_append.mp htx with h | h
        · rwa [List.eq_of_mem_replicate h]
        · rwa [List.mem_singleton.mp h])
    have hTrees : rootTree ((List.replicate (n - 1) a ++ [a]).map E.gobTx) =
        rootTree ((List.replicate (n - 1) a ++ [b]).map E.gobTx) := by
      rw [List.map_append, List.map_append]
      refine rootTree_last_irrelevant ?_ _ _
      rwa [List.length_map, List.length_replicate, Nat.sub_add_cancel hn]
    obtain ⟨t, ht, -⟩ := levels_rootTree
      (show 0 < ((List.replicate (n - 1) a ++ [a]).map E.gobTx).length by simp)
    have hRoot := (setupMerkleTree_eq E (by simp) ht).trans
      (setupMerkleTree_eq E (by simp) (hTrees ▸ ht)).symm
    exact hab (by simpa using hLists hRoot)
  · rintro ⟨k, hPow⟩ xs ys hx hy hxS hyS hRoot
    obtain ⟨t, ht, -⟩ := levels_rootTree (show 0 < (xs.map E.gobTx).length by simpa [hx] using hn)
    obtain ⟨t', ht', -⟩ := levels_rootTree (show 0 < (ys.map E.gobTx).length by simpa [hy] using hn)
    rw [setupMerkleTree_eq E (by omega) ht, setupMerkleTree_eq E (by omega) ht'] at hRoot
    have hTree : t = t' := by
      refine HashTree.eq_of_root_eq E.sha256_length hInj ?_ ?_ ?_ ?_ (Except.ok.inj hRoot)
      · exact fun s hs => ⟨xs, hx, hxS, by simpa [treeInputs, ht] using hs⟩
      · exact fun s hs => ⟨ys, hy, hyS, by simpa [treeInputs, ht'] using hs⟩
      · exact fun d hd => length_gobTx_ne E (mem_of_mem_leaves_rootTree ht d hd)
      · exact fun d hd => length_gobTx_ne E (mem_of_mem_leaves_rootTree ht' d hd)
    subst hTree
    exact E.gobTx_injective.list_map (rootTree_injective (by simpa [hx] using hn)
      (by simp [hx, hy]) (by simpa [hx] using hPow) (ht.trans ht'.symm))

/-- Two transactions: every list of two of them has its own root. -/
theorem setupMerkleTree_binds_two :
    (∀ xs ys : List Transaction, xs.length = 2 → ys.length = 2 →
      (∀ tx ∈ xs, tx ∈ ({StandIn.plainTx 1, StandIn.plainTx 2} : Set Transaction)) →
      (∀ tx ∈ ys, tx ∈ ({StandIn.plainTx 1, StandIn.plainTx 2} : Set Transaction)) →
      setupMerkleTree (.standIn fun _ => none) xs = setupMerkleTree (.standIn fun _ => none) ys →
      xs = ys) ↔ ∃ k, 2 + 2 % 2 = 2 ^ k := by
  refine setupMerkleTree_binds_iff (.standIn fun _ => none) (n := 2) (by decide)
    (Set.nontrivial_pair (by decide)) ?_
  let tx := StandIn.plainTx
  refine StandIn.injOn_of_forall ([[tx 1, tx 1], [tx 1, tx 2], [tx 2, tx 1], [tx 2, tx 2]].flatMap
    fun txs => treeInputs (.standIn fun _ => none) (rootTree (txs.map StandIn.encodeTx))) ?_
    (by decide +kernel)
  rintro s ⟨txs, hLen, hMem, hs⟩
  match txs, hLen with
  | [a, b], _ =>
    have ha := hMem a (by simp)
    have hb := hMem b (by simp)
    simp only [Set.mem_insert_iff, Set.mem_singleton_iff] at ha hb
    simp only [List.flatMap_cons, List.flatMap_nil, List.mem_append]
    rcases ha with rfl | rfl <;> rcases hb with rfl | rfl
    · exact Or.inl hs
    · exact Or.inr (Or.inl hs)
    · exact Or.inr (Or.inr (Or.inl hs))
    · exact Or.inr (Or.inr (Or.inr (Or.inl hs)))

/-- Of five transactions the last can be exchanged under any hash: the padded level of six
gives three nodes, and the third is dropped. -/
theorem setupMerkleTree_five_misses_last :
    [1, 2, 3, 4, 5].map StandIn.plainTx ≠ [1, 2, 3, 4, 6].map StandIn.plainTx ∧
      ∀ E : External, setupMerkleTree E ([1, 2, 3, 4, 5].map StandIn.plainTx) =
        setupMerkleTree E ([1, 2, 3, 4, 6].map StandIn.plainTx) :=
  ⟨by decide, fun _ => by
    simp [setupMerkleTree, newMerkleTree, padOdd, levels, pairUp, newMerkleNode]⟩

/-! ## Proofs against the root -/

/-- The two trees are the same when padding the leaves leaves nothing to pad. -/
theorem proofTree_eq_rootTree {data : List Bytes} {k : Nat} (hTwo : 2 ≤ data.length)
    (hPow : data.length + data.length % 2 = 2 ^ k) : proofTree data = rootTree data := by
  obtain ⟨m, hm⟩ : ∃ m, data.length = m + 1 := ⟨data.length - 1, by omega⟩
  obtain ⟨m', hm'⟩ : ∃ m', (padOdd data).length = m' + 1 :=
    ⟨(padOdd data).length - 1, by rw [length_padOdd]; omega⟩
  obtain ⟨k, rfl⟩ : ∃ j, k = j + 1 := by
    cases k with
    | zero => omega
    | succ k => exact ⟨k, rfl⟩
  have hPad := length_padOdd data
  rw [pow_succ] at hPow
  -- the first round of each, then levels of even length only
  have hHalf : (pairUp HashTree.fork ((padOdd data).map .leaf)).length = 2 ^ k := by
    rw [length_pairUp, List.length_map]
    omega
  have hShrink : ∀ ts : List HashTree, 1 < ts.length → (pairUp .fork ts).length < ts.length := by
    intro ts hts
    rw [length_pairUp]
    omega
  rw [proofTree, rootTree, hm, hm', levels, levels, List.length_map, List.length_map,
    if_neg (by omega), if_neg (by omega), Function.comp_apply, ← map_padOdd,
    levels_padOdd_of_two_pow hHalf,
    levels_fuel hShrink (show _ ≤ m + 1 by omega) (show _ ≤ m' + 1 by omega)]

/-- Trees of different depth have different roots, so the two agree only when they are the
same. -/
theorem two_pow_of_tree_eq {data : List Bytes} {t : HashTree} (hNe : 0 < data.length)
    (hProof : proofTree data = some t) (hRoot : rootTree data = some t) :
    2 ≤ data.length ∧ ∃ k, data.length + data.length % 2 = 2 ^ k := by
  have hDepth : ∀ a b : HashTree, (HashTree.fork a b).leftDepth = a.leftDepth + 1 := fun _ _ => rfl
  have hLeaf : ∀ ds : List Bytes, ∀ t ∈ ds.map HashTree.leaf, t.leftDepth = 0 := by
    intro ds t ht
    obtain ⟨d, -, rfl⟩ := List.mem_map.mp ht
    rfl
  have hPad := length_padOdd data
  obtain ⟨k, hLow, hHigh⟩ := exists_log_two (show 0 < (padOdd data).length by omega)
  obtain ⟨k', hHigh', hLow'⟩ := exists_clog_two hNe
  have hk : t.leftDepth = 0 + k :=
    depth_levels_pairUp hDepth (le_of_two_pow_lt (by omega)) (by rwa [List.length_map])
      (by rwa [List.length_map]) (hLeaf _) t (List.mem_of_head? hRoot)
  have hk' : t.leftDepth = 0 + k' :=
    depth_levels_padOdd hDepth (le_of_two_pow_lt hLow') (by rwa [List.length_map])
      (by rwa [List.length_map]) (hLeaf _) t (List.mem_of_head? hProof)
  obtain rfl : k = k' := by omega
  cases k with
  | zero => omega
  | succ k =>
    rw [pow_succ] at hLow hHigh' hLow'
    exact ⟨by omega, k + 1, by rw [pow_succ]; omega⟩

/-- **When a proof meets the header.** For every transaction of a block both builders return,
and the proof verifies against the header's root exactly when the block has at least two
transactions and their number rounded up to an even one is a power of two. -/
theorem generateMerkleProof_verifies_iff (E : External) {txs : List Transaction} {i : Nat}
    (hi : i < txs.length)
    (hInj : Set.InjOn E.sha256 {s | s ∈ treeInputs E (rootTree (txs.map E.gobTx)) ∨
      s ∈ treeInputs E (proofTree (txs.map E.gobTx))}) :
    ∃ merkleRootHash proof, setupMerkleTree E txs = .ok merkleRootHash ∧
      generateMerkleProof E txs i = .ok (some proof) ∧
      (verifyMerkleProof E (some { proof with merkleRoot := merkleRootHash }) = .ok true ↔
        2 ≤ txs.length ∧ ∃ k, txs.length + txs.length % 2 = 2 ^ k) := by
  have hLen : (txs.map E.gobTx).length = txs.length := List.length_map ..
  obtain ⟨t, hRoot, -⟩ := levels_rootTree (show 0 < (txs.map E.gobTx).length by omega)
  obtain ⟨t', proof, hProof, hGenerate, hVerify⟩ := generateMerkleProof_eq E hi
  refine ⟨_, proof, setupMerkleTree_eq E (by omega) hRoot, hGenerate, ?_⟩
  have hRun : verifyMerkleProof E (some { proof with merkleRoot := t.root E.sha256 }) =
      .ok (t'.root E.sha256 == t.root E.sha256) := bind_eq_ok.mpr ⟨_, hVerify, rfl⟩
  rw [hRun]
  simp only [Except.ok.injEq, beq_iff_eq]
  constructor
  · intro hEq
    have hTree : t' = t := by
      refine HashTree.eq_of_root_eq E.sha256_length hInj ?_ ?_ ?_ ?_ hEq
      · exact fun s hs => Or.inr (by simpa [treeInputs, hProof] using hs)
      · exact fun s hs => Or.inl (by simpa [treeInputs, hRoot] using hs)
      · exact fun d hd => length_gobTx_ne E (mem_of_mem_leaves_proofTree hProof d hd)
      · exact fun d hd => length_gobTx_ne E (mem_of_mem_leaves_rootTree hRoot d hd)
    subst hTree
    have hPow := two_pow_of_tree_eq (by omega) hProof hRoot
    rwa [hLen] at hPow
  · rintro ⟨hTwo, k, hPow⟩
    have hTrees : proofTree (txs.map E.gobTx) = rootTree (txs.map E.gobTx) :=
      proofTree_eq_rootTree (k := k) (by omega) (by rwa [hLen])
    rw [hProof, hRoot] at hTrees
    rw [Option.some.inj hTrees]

/-- Three transactions, padded to four. -/
theorem generateMerkleProof_verifies_three :
    ∃ merkleRootHash proof,
      setupMerkleTree (.standIn fun _ => none) ([1, 2, 3].map StandIn.plainTx) =
        .ok merkleRootHash ∧
      generateMerkleProof (.standIn fun _ => none) ([1, 2, 3].map StandIn.plainTx) 2 =
        .ok (some proof) ∧
      verifyMerkleProof (.standIn fun _ => none)
        (some { proof with merkleRoot := merkleRootHash }) = .ok true := by
  obtain ⟨merkleRootHash, proof, hRoot, hProof, hVerify⟩ :=
    generateMerkleProof_verifies_iff (.standIn fun _ => none)
      (show 2 < ([1, 2, 3].map StandIn.plainTx).length by decide) (by
        let data := ([1, 2, 3].map StandIn.plainTx).map StandIn.encodeTx
        refine StandIn.injOn_of_forall (treeInputs (.standIn fun _ => none) (rootTree data) ++
          treeInputs (.standIn fun _ => none) (proofTree data)) ?_ (by decide +kernel)
        exact fun s hs => List.mem_append.mpr hs)
  exact ⟨merkleRootHash, proof, hRoot, hProof, hVerify.mpr ⟨by decide, 2, rfl⟩⟩

/-- The proof for the only transaction of a block fails: the header's root is the digest of
the leaf with itself, the proof's is the leaf. -/
theorem generateMerkleProof_single_fails :
    (do
      let merkleRootHash ← setupMerkleTree (.standIn fun _ => none) [StandIn.plainTx 1]
      let proof ← generateMerkleProof (.standIn fun _ => none) [StandIn.plainTx 1] 0
      verifyMerkleProof (.standIn fun _ => none)
        (proof.map fun p : MerkleProof => { p with merkleRoot := merkleRootHash })) = .ok false := by
  decide +kernel

end Bdns.Blockchain
