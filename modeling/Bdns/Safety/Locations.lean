import Bdns.Gateway.Server
import Bdns.Safety.Entries

/-!
# Where the transaction of a domain stands

`IndexManager.Add` is told a block index and a position, which `QueryDomain` and `HandleDNSQuery`
later use to find the transaction of a domain. `ApplyDomainMutations` passes the slot of the block
in the place of its index. So along a chain every location is the slot of the block that wrote the
entry, with the right position (`Located`), and it leads to this block where the block's slot
number and its index are the same.
-/

namespace Bdns.Safety

open Lib Blockchain Network Index Gateway

/-- A transaction that writes to the index, and the one that is stored for it. Only a RENEW is
stored in another form. -/
structure StandsFor (tx t : Transaction) : Prop where
  writes : Writes tx
  stored : StoredAs tx t
  same : tx.type ≠ .renew → t = tx

theorem standsFor_self {tx : Transaction} (hWrites : Writes tx) : StandsFor tx tx :=
  ⟨hWrites, storedAs_refl tx, fun _ => rfl⟩

/-! ## The journal of a block -/

/-- The transaction that a journal adds for a domain, and its location. -/
def placed (o : IndexOverlay) (d : Bytes) : Option (Transaction × TxLocation) :=
  (o.journal[d]?).bind fun entry =>
    entry.addedTx.map fun t => (t, ⟨entry.blockIndex, entry.txIndex⟩)

section Placed

variable {E : External} (o : IndexOverlay) (d : Bytes)

theorem placed_add (t : Transaction) (blockIndex : Int64) (txIndex : Nat) (slotsPerDay : Int64)
    (d' : Bytes) : placed (o.add d t blockIndex txIndex slotsPerDay) d' =
      if d = d' then some (t, ⟨blockIndex, txIndex⟩) else placed o d' := by
  unfold placed IndexOverlay.add
  dsimp only
  rw [getElem?_insert_eq_ite]
  split
  · rfl
  · rfl

/-- A write to the metadata of an entry. -/
theorem placed_write {entry' : OverlayEntry} (hTx : entry'.addedTx = (o.entryFor E d).addedTx)
    (hBlock : entry'.blockIndex = (o.entryFor E d).blockIndex)
    (hIndex : entry'.txIndex = (o.entryFor E d).txIndex) (d' : Bytes) :
    placed { o with journal := o.journal.insert d entry' } d' = placed o d' := by
  unfold placed
  dsimp only
  rw [getElem?_insert_eq_ite]
  split
  · rename_i hd
    subst hd
    rw [Option.bind_some, hTx, hBlock, hIndex]
    unfold IndexOverlay.entryFor
    cases o.journal[d]? with
    | none => rfl
    | some entry => rfl
  · rfl

@[simp] theorem placed_setOwner (ownerKey : Option Bytes) (d' : Bytes) :
    placed (o.setOwner E d ownerKey) d' = placed o d' := by
  apply placed_write (E := E) o d
  all_goals rfl

@[simp] theorem placed_setListPrice (price : UInt64) (d' : Bytes) :
    placed (o.setListPrice E d price) d' = placed o d' := by
  apply placed_write (E := E) o d
  all_goals rfl

@[simp] theorem placed_keepOwner (owner : Option Bytes) (d' : Bytes) :
    placed (keepOwner E d owner o) d' = placed o d' := by
  cases owner with
  | none => rfl
  | some existingOwner => exact placed_setOwner o d _ d'

variable {pos : Position} {tx : Transaction} {st st' : DomainState} {err : Option Bytes}

theorem placed_replaceDomain (isRenew : Bool) (d : Bytes) :
    placed (replaceDomain E pos tx st isRenew).im d =
      if tx.domainName = d then some (storeTx E tx st isRenew, ⟨pos.currentSlot, pos.txIndex⟩)
      else placed st.im d := by
  rw [im_replaceDomain, placed_keepOwner]
  unfold pricedDomain
  dsimp only
  split
  · rw [placed_setListPrice]
    exact placed_add ..
  · exact placed_add ..

theorem placed_revokeDomain (d : Bytes) :
    placed (revokeDomain E pos tx st).im d =
      if tx.domainName = d then some (tx, ⟨pos.currentSlot, pos.txIndex⟩)
      else placed st.im d := by
  have hSpent : placed (spentDomain tx st) d = placed st.im d := by
    unfold spentDomain
    split <;> rfl
  rw [im_revokeDomain, placed_keepOwner, addDomain, placed_add]
  exact congrArg (fun p => if tx.domainName = d then some (tx, _) else p) hSpent

/-- A transaction leaves what the journal adds for a domain alone, or it is of the domain and is
added with the slot of the block and its own position. -/
theorem placed_of_effect (hEffect : DomainEffect E pos tx st st' err) (d : Bytes) :
    placed st'.im d = placed st.im d ∨ tx.domainName = d ∧
      ∃ t, StandsFor tx t ∧ placed st'.im d = some (t, ⟨pos.currentSlot, pos.txIndex⟩) := by
  have hAdded {t : Transaction} (hFor : StandsFor tx t)
      (h : placed st'.im d = if tx.domainName = d then some (t, ⟨pos.currentSlot, pos.txIndex⟩)
        else placed st.im d) :
      placed st'.im d = placed st.im d ∨ tx.domainName = d ∧
        ∃ t, StandsFor tx t ∧ placed st'.im d = some (t, ⟨pos.currentSlot, pos.txIndex⟩) := by
    by_cases hd : tx.domainName = d
    · exact .inr ⟨hd, t, hFor, by rw [h, if_pos hd]⟩
    · exact .inl (by rw [h, if_neg hd])
  cases hEffect with
  | failed | skipped | committed => exact .inl rfl
  | registered hType =>
    exact hAdded (standsFor_self (.inl hType)) ((placed_setOwner ..).trans (placed_add ..))
  | revealed hType =>
    exact hAdded (standsFor_self (.inr (.inl hType))) ((placed_setOwner ..).trans (placed_add ..))
  | revoked hType =>
    exact hAdded (standsFor_self (.inr (.inr (.inl hType)))) (placed_revokeDomain d)
  | updated hType =>
    exact hAdded (standsFor_self (.inr (.inr (.inr (.inl hType))))) (placed_replaceDomain false d)
  | renewed hType =>
    exact hAdded ⟨.inr (.inr (.inr (.inr hType))), storedAs_storeTx E tx st true,
      fun hOther => absurd hType hOther⟩ (placed_replaceDomain true d)
  | listed | delisted => exact .inl (placed_setListPrice ..)
  | bought | transferred =>
    exact .inl ((placed_setListPrice ..).trans (placed_setOwner ..))

end Placed

/-- What the journal of a block adds stands in the block, at the position that it gives. -/
theorem placed_of_stages {env : Env} {order : JournalOrder} {s : ChainState} {b : Block}
    {staged : Staged} (h : Stages env order s b staged) {d : Bytes} {t : Transaction}
    {loc : TxLocation} (hPlaced : placed staged.im d = some (t, loc)) :
    ∃ tx, b.transactions[loc.txIndex]? = some tx ∧ tx.domainName = d ∧ StandsFor tx t ∧
      loc.blockIndex = b.slotNumber := by
  obtain ⟨⟨ledger, st, -, hDomain, -, hIm, -⟩, -⟩ := h
  rw [hIm] at hPlaced
  refine foldlM_invariant (fun st : DomainState => ∀ (t : Transaction) (loc : TxLocation),
    placed st.im d = some (t, loc) → ∃ tx, b.transactions[loc.txIndex]? = some tx ∧
      tx.domainName = d ∧ StandsFor tx t ∧ loc.blockIndex = b.slotNumber) ?_ ?_ hDomain t loc hPlaced
  · rintro ⟨tx, i⟩ hMem st st' hBefore hBody t loc hPlaced
    obtain ⟨⟨st₁, err⟩, hApply, hSame⟩ := bind_eq_ok.mp hBody
    obtain rfl := pure_eq_ok.mp hSame
    obtain hOld | ⟨hName, t', hFor, hNew⟩ :=
      placed_of_effect (applyDomainMutations_eq_ok hApply) d
    · exact hBefore t loc (hOld ▸ hPlaced)
    · obtain ⟨rfl, rfl⟩ := Prod.mk.inj (Option.some.inj (hNew.symm.trans hPlaced))
      exact ⟨tx, List.mem_zipIdx_iff_getElem?.mp hMem, hName, hFor, rfl⟩
  · intro t loc hEmpty
    exact absurd hEmpty (by simp [placed, IndexOverlay.newIndexOverlay])

/-! ## Along a chain -/

/-- Every entry of the index has the location at which a block holds its transaction, with the
slot of the block instead of its index. -/
def Located (E : External) (blocks : List Block) (im : IndexManager) : Prop :=
  ∀ key node, im.tree.search key = some node → ∃ b ∈ blocks, ∃ (i : Nat) (tx : Transaction),
    im.txLocations key = some ⟨b.slotNumber, i⟩ ∧ b.transactions[i]? = some tx ∧
      hashDomain E tx.domainName = key ∧ StandsFor tx node.1

theorem Located.commit {env : Env} {order : JournalOrder} {blocks : List Block} {s : ChainState}
    {b : Block} {staged : Staged} {im : IndexManager} (h : Located env.E (blocks ++ [b]) im)
    (hStages : Stages env order s b staged)
    {range : List (Bytes × OverlayEntry) → List (Bytes × OverlayEntry)}
    (hRange : ∀ xs, (range xs).Perm xs) :
    Located env.E (blocks ++ [b]) (staged.im.commit env.E range im) := by
  intro key node hSearch
  obtain ⟨m, hOld, hLoc⟩ | ⟨d, entry, hEntry, hKey, hAdded, hLoc⟩ :=
    node_commit_cases staged.im hRange im hSearch
  · rw [hLoc]
    exact h key (node.1, m) hOld
  · have hPlaced : placed staged.im d = some (node.1, ⟨entry.blockIndex, entry.txIndex⟩) := by
      unfold placed
      rw [hEntry, Option.bind_some, hAdded]
      rfl
    obtain ⟨tx, hTx, hName, hFor, hSlot⟩ := placed_of_stages hStages hPlaced
    refine ⟨b, List.mem_append_right _ List.mem_cons_self, entry.txIndex, tx, ?_, hTx,
      hName ▸ hKey, hFor⟩
    rw [hLoc]
    exact congrArg (fun slot => some (TxLocation.mk slot entry.txIndex)) hSlot

theorem located_of_chain {env : Env} {blocks : List Block} {s : ChainState}
    (hChain : Chain env blocks s) : Located env.E blocks s.index := by
  induction hChain with
  | genesis block =>
    intro key node hSearch
    have hEmpty := AVLTree.search_empty key
    exact absurd (hEmpty.symm.trans hSearch) (by simp)
  | @add blocks s latest b order slotLeader staged chain tip accepted ih =>
    obtain ⟨-, -, hStages⟩ := validateBlock_eq_ok accepted
    have hBefore : Located env.E (blocks ++ [b]) s.index := by
      intro key node hSearch
      obtain ⟨b', hb', hRest⟩ := ih key node hSearch
      exact ⟨b', List.mem_append_left _ hb', hRest⟩
    exact (hBefore.commit hStages (order.perm _)).commit hStages (order.perm _)

/-- From a block of a chain to the tip the index grows by one with every block, and the slot
number by at least one. -/
theorem steps_to_tip {env : Env} {blocks : List Block} {s : ChainState} {latest : Block}
    (hChain : Chain env blocks s) (hTip : blocks.getLast? = some latest) :
    ∀ b ∈ blocks, ∃ k : Nat, latest.index = b.index + Int64.ofNat k ∧
      b.slotNumber.toInt + k ≤ latest.slotNumber.toInt := by
  induction hChain generalizing latest with
  | genesis block =>
    intro b hb
    obtain rfl := List.mem_singleton.mp hb
    obtain rfl : b = latest := by simpa using hTip
    exact ⟨0, by simp, by simp⟩
  | @add blocks s last b₁ _ _ _ _ tip accepted ih =>
    obtain rfl : b₁ = latest := by simpa using hTip
    obtain ⟨hIndex, hSlot, -⟩ := checkHeader_eq_ok (validateBlock_eq_ok accepted).1
    rw [Int64.lt_iff_toInt_lt] at hSlot
    intro b hb
    rcases List.mem_append.mp hb with hb | hb
    · obtain ⟨k, hLast, hGap⟩ := ih tip b hb
      refine ⟨k + 1, ?_, by push_cast; omega⟩
      rw [← hIndex, hLast, Int64.ofNat_add, Int64.add_assoc]
      rfl
    · obtain rfl := List.mem_singleton.mp hb
      exact ⟨0, by simp, by simp⟩

/-- There are fewer blocks than slot numbers, so no index comes twice. -/
theorem index_injOn_of_chain {env : Env} {blocks : List Block} {s : ChainState}
    (hChain : Chain env blocks s) : Set.InjOn Block.index {b | b ∈ blocks} := by
  induction hChain with
  | genesis block =>
    intro b hb b' hb' _
    exact (List.mem_singleton.mp hb).trans (List.mem_singleton.mp hb').symm
  | @add blocks s last b₁ _ _ _ chain tip accepted ih =>
    have hNew : ∀ b ∈ blocks, b.index ≠ b₁.index := by
      intro b hb hSame
      obtain ⟨hIndex, hSlot, -⟩ := checkHeader_eq_ok (validateBlock_eq_ok accepted).1
      obtain ⟨k, hLast, hGap⟩ := steps_to_tip chain tip b hb
      rw [Int64.lt_iff_toInt_lt] at hSlot
      have hZero : Int64.ofNat (k + 1) = 0 := by
        rw [← hIndex, hLast, Int64.add_assoc] at hSame
        rw [Int64.ofNat_add]
        exact Int64.left_eq_add.mp hSame
      have hMod : (k + 1) % 2 ^ 64 = 0 := by
        have hBits := congrArg (fun x : Int64 => x.toBitVec.toNat) hZero
        simpa using hBits
      have hLow := b.slotNumber.le_toInt
      have hHigh := b₁.slotNumber.toInt_lt
      omega
    intro b hb b' hb' hSame
    rcases List.mem_append.mp hb with hOld | hTip <;> rcases List.mem_append.mp hb' with hOld' | hTip'
    · exact ih hOld hOld' hSame
    · obtain rfl := List.mem_singleton.mp hTip'
      exact absurd hSame (hNew b hOld)
    · obtain rfl := List.mem_singleton.mp hTip
      exact absurd hSame.symm (hNew b' hOld')
    · exact (List.mem_singleton.mp hTip).trans (List.mem_singleton.mp hTip').symm

/-- A store that holds a chain finds its blocks by their indices. -/
theorem getBlockByIndex_of_chain {env : Env} {blocks : List Block} {s : ChainState}
    (hChain : Chain env blocks s) {bc : Blockchain.Blockchain} {tip : Bytes}
    (hTip : bc.tip = some tip) (hStored : bc.ChainTo tip blocks) {fuel : Nat}
    (hFuel : blocks.length ≤ fuel) {b : Block} (hb : b ∈ blocks) :
    bc.getBlockByIndex fuel b.index = .ok (some b) := by
  unfold Blockchain.Blockchain.getBlockByIndex
  rw [hTip, Option.getD_some, hStored.findByIndex b.index hFuel]
  cases hFind : blocks.reverse.find? fun b' => b'.index = b.index with
  | none =>
    have hNone := List.find?_eq_none.mp hFind b (List.mem_reverse.mpr hb)
    exact absurd (decide_eq_true rfl) hNone
  | some b' =>
    have hIndex : b'.index = b.index := by simpa using List.find?_some hFind
    have hMem : b' ∈ blocks := List.mem_reverse.mp (List.mem_of_find?_eq_some hFind)
    rw [index_injOn_of_chain hChain hMem hb hIndex]

/-! ## Slots in the place of indices -/

namespace StandIn

open Network.StandIn

/-- The domain is registered in block 2, at slot 4, and block 4 holds a COMMIT. -/
def gapLog : List (Int64 × List Transaction) :=
  [(1, [commitTx 1 0 [1]]), (4, [revealTx 2 1 1 [1] 1000]), (5, [commitTx 3 2 [2]]),
    (6, [commitTx 4 3 [3]])]

/-- The same with no slot left out up to the registration. -/
def denseLog : List (Int64 × List Transaction) :=
  [(1, [commitTx 1 0 [1]]), (2, [commitTx 2 1 [2]]), (3, [commitTx 3 2 [3]]),
    (4, [revealTx 4 1 3 [1] 1000])]

def blocksOf (log : List (Int64 × List Transaction)) : List Block :=
  [registryGenesis] ++ logBlocks (genesisState registryEnv, registryGenesis) log

/-- A node with the state and the blocks of a log. -/
def nodeOf (log : List (Int64 × List Transaction)) : Node where
  state := (afterLog log).1
  blockchain := (blocksOf log).foldl Blockchain.Blockchain.addBlock {}

def clock : Clock := ⟨1, 0⟩

/-- Every block of a list is new to the store and extends its tip. -/
def linked (bc : Blockchain.Blockchain) (last : Block) : List Block → Bool
  | [] => true
  | b :: blocks => (bc.blocks b.hash).isNone && b.prevHash == last.hash &&
      b.index == last.index + 1 && b.index != 0 && linked (bc.addBlock b) b blocks

theorem chainTo_foldl {bc : Blockchain.Blockchain} {before blocks : List Block} {last : Block}
    (hTip : bc.tip = some last.hash) (hLast : bc.blocks last.hash = some last)
    (hChain : bc.ChainTo last.hash before) (hLinked : linked bc last blocks = true) :
    ∃ tip, (blocks.foldl Blockchain.Blockchain.addBlock bc).tip = some tip ∧
      (blocks.foldl Blockchain.Blockchain.addBlock bc).ChainTo tip (before ++ blocks) := by
  induction blocks generalizing bc before last with
  | nil => exact ⟨last.hash, hTip, by simpa using hChain⟩
  | cons b blocks ih =>
    simp only [linked, Bool.and_eq_true, Option.isNone_iff_eq_none, beq_iff_eq, bne_iff_ne] at hLinked
    obtain ⟨⟨⟨⟨hNew, hPrev⟩, hIndex⟩, hLater⟩, hRest⟩ := hLinked
    have hStored := Blockchain.Blockchain.blocks_addBlock_self hNew
    have hStep : (bc.addBlock b).ChainTo b.hash (before ++ [b]) :=
      .step hStored hLater (hPrev ▸ hChain.addBlock)
    obtain ⟨tip, hTip', hChain'⟩ :=
      ih (Blockchain.Blockchain.tip_addBlock_of_extends hNew hTip hLast hPrev hIndex) hStored hStep
        hRest
    exact ⟨tip, hTip', by simpa using hChain'⟩

/-- The store of a node of a log holds the chain of the log. -/
theorem chainTo_nodeOf {log : List (Int64 × List Transaction)}
    (hLinked : linked (Blockchain.Blockchain.addBlock {} registryGenesis) registryGenesis
      (logBlocks (genesisState registryEnv, registryGenesis) log) = true) :
    ∃ tip, (nodeOf log).blockchain.tip = some tip ∧
      (nodeOf log).blockchain.ChainTo tip (blocksOf log) :=
  chainTo_foldl (Blockchain.Blockchain.tip_addBlock_of_none rfl rfl)
    (Blockchain.Blockchain.blocks_addBlock_self rfl)
    (.genesis (Blockchain.Blockchain.blocks_addBlock_self rfl) (by decide +kernel)) hLinked

end StandIn

open Network.StandIn StandIn in
/-- The location of the domain is slot 4, which block 2 has. While there are three blocks, a query
fails; once block 4 is there, the domain is served with a proof for a COMMIT. -/
theorem slot_taken_for_index :
    (Chain registryEnv (blocksOf (gapLog.take 2)) (nodeOf (gapLog.take 2)).state ∧
      (nodeOf (gapLog.take 2)).state.index.getTxLocation registryEnv.E (utf8 "a.bdns") =
        some ⟨4, 0⟩ ∧
      (∀ b ∈ blocksOf (gapLog.take 2), b.index ≠ 4) ∧
      queryDomain registryEnv.E clock 5 5 (nodeOf (gapLog.take 2)) (utf8 "a.bdns") =
        .ok (.error (.status .internal (utf8 "block 4 not found")))) ∧
    Chain registryEnv (blocksOf gapLog) (nodeOf gapLog).state ∧
      (nodeOf gapLog).state.index.getDomain registryEnv.E (utf8 "a.bdns") =
        some (revealTx 2 1 1 [1] 1000) ∧
      (nodeOf gapLog).state.index.getTxLocation registryEnv.E (utf8 "a.bdns") = some ⟨4, 0⟩ ∧
      (∃ b ∈ blocksOf gapLog, b.index = 4 ∧ b.transactions = [commitTx 4 3 [3]]) ∧
      (∃ response, queryDomain registryEnv.E clock 7 5 (nodeOf gapLog) (utf8 "a.bdns") =
          .ok (.ok response) ∧
        response.proof.txHash = registryEnv.E.sha256 (registryEnv.E.gobTx (commitTx 4 3 [3]))) ∧
      ∃ response, handleDNSQuery registryEnv.E clock 7 5 (nodeOf gapLog) (utf8 "a.bdns") =
          .ok (some response) ∧
        response.transaction = revealTx 2 1 1 [1] 1000 ∧
        response.proof.txHash =
          registryEnv.E.sha256 (registryEnv.E.gobTx (commitTx 4 3 [3])) := by
  -- the log up to its second block, then the whole log
  obtain ⟨hLog₂, hLoc₂, hIndices₂, hQuery₂⟩ :
      logAccepted (genesisState registryEnv, registryGenesis) (gapLog.take 2) = true ∧
        (nodeOf (gapLog.take 2)).state.index.getTxLocation registryEnv.E (utf8 "a.bdns") =
          some ⟨4, 0⟩ ∧
        (∀ b ∈ blocksOf (gapLog.take 2), b.index ≠ 4) ∧
        queryDomain registryEnv.E clock 5 5 (nodeOf (gapLog.take 2)) (utf8 "a.bdns") =
          .ok (.error (.status .internal (utf8 "block 4 not found"))) := by
    decide +kernel
  obtain ⟨hLog, hDomain, hLoc, hIndices, hFound⟩ :
      logAccepted (genesisState registryEnv, registryGenesis) gapLog = true ∧
        (nodeOf gapLog).state.index.getDomain registryEnv.E (utf8 "a.bdns") =
          some (revealTx 2 1 1 [1] 1000) ∧
        (nodeOf gapLog).state.index.getTxLocation registryEnv.E (utf8 "a.bdns") = some ⟨4, 0⟩ ∧
        (∃ b ∈ blocksOf gapLog, b.index = 4 ∧ b.transactions = [commitTx 4 3 [3]]) ∧
        ((nodeOf gapLog).blockchain.getBlockByIndex 5 4).toOption.any
          (fun b => b.any fun b => decide (b.transactions = [commitTx 4 3 [3]])) = true := by
    decide +kernel
  obtain ⟨found, hBlock, hAny⟩ := exists_of_any hFound
  obtain ⟨block, rfl⟩ : ∃ block, found = some block := by
    cases found with
    | none => exact absurd hAny (by simp)
    | some block => exact ⟨block, rfl⟩
  have hTx : block.transactions[0]? = some (commitTx 4 3 [3]) := by
    rw [of_decide_eq_true hAny]
    rfl
  have hActive : getDomainPhase (clock.slotAt 7) (revealTx 2 1 1 [1] 1000).expirySlot
      (86400 / clock.slotInterval) = .active := by decide +kernel
  obtain ⟨proof, hHash, hQuery, hHandle⟩ :=
    served_at_location (by decide) hDomain hActive hLoc hBlock hTx
  exact ⟨⟨(chain_afterLog hLog₂).1, hLoc₂, hIndices₂, hQuery₂⟩, (chain_afterLog hLog).1, hDomain,
    hLoc, hIndices, ⟨_, hQuery, hHash⟩, ⟨_, hHandle, rfl, hHash⟩⟩

/-- Where every block that writes to the index has its index as its slot number, the location of a
domain leads to the transaction that stands for the domain, and both answers to a query come with
a proof for this transaction. -/
theorem location_leads_to_tx {env : Env} {blocks : List Block} {s : ChainState}
    {names : Set Bytes} (hChain : Chain env blocks s)
    (hNames : ∀ b ∈ blocks, ∀ tx ∈ b.transactions, Writes tx → tx.domainName ∈ names)
    (hInj : Set.InjOn env.E.sha256 names)
    (hSlots : ∀ b ∈ blocks, (∃ tx ∈ b.transactions, Writes tx) → b.slotNumber = b.index)
    {d : Bytes} (hd : d ∈ names) {t : Transaction}
    (hDomain : s.index.getDomain env.E d = some t) :
    ∃ b ∈ blocks, ∃ (i : Nat) (tx : Transaction),
      s.index.getTxLocation env.E d = some ⟨b.index, i⟩ ∧
      (∀ b' ∈ blocks, b'.index = b.index → b' = b) ∧
      b.transactions[i]? = some tx ∧ tx.domainName = d ∧ tx.tid = t.tid ∧
      (tx.type ≠ .renew → t = tx) ∧
      ∀ (n : Node) (tip : Bytes) (fuel : Nat) (clock : Clock) (now : Int64),
        n.state = s → n.blockchain.tip = some tip → n.blockchain.ChainTo tip blocks →
        blocks.length ≤ fuel → clock.slotInterval ≠ 0 →
        getDomainPhase (clock.slotAt now) t.expirySlot (86400 / clock.slotInterval) = .active →
        ∃ proof : MerkleProof, proof.txHash = env.E.sha256 (env.E.gobTx tx) ∧
          queryDomain env.E clock now fuel n d = .ok (.ok
            ⟨d, firstAddress t.records, ⟨proof.txHash, proof.proofPath, proof.directions⟩,
              b.header⟩) ∧
          handleDNSQuery env.E clock now fuel n d =
            .ok (some ⟨d, t.records, t, proof, b.header⟩) := by
  rw [IndexManager.getDomain_eq] at hDomain
  obtain ⟨node, hNode, rfl⟩ := Option.map_eq_some_iff.mp hDomain
  obtain ⟨b, hb, i, tx, hLoc, hTx, hKey, hFor⟩ := located_of_chain hChain _ node hNode
  have hMem : tx ∈ b.transactions := List.mem_of_getElem? hTx
  have hName : tx.domainName = d :=
    hInj (hNames b hb tx hMem hFor.writes) hd (hexEncode_injective hKey)
  have hIndex : b.slotNumber = b.index := hSlots b hb ⟨tx, hMem, hFor.writes⟩
  rw [hIndex] at hLoc
  refine ⟨b, hb, i, tx, hLoc, fun b' hb' hSame => index_injOn_of_chain hChain hb' hb hSame, hTx,
    hName, hFor.stored.tid.symm, hFor.same, ?_⟩
  rintro n tip fuel clock now rfl hTip hStored hFuel hClock hActive
  have hBlock := getBlockByIndex_of_chain hChain hTip hStored hFuel hb
  exact served_at_location hClock (by rw [IndexManager.getDomain_eq, hNode]; rfl) hActive hLoc
    hBlock hTx

open Network.StandIn StandIn in
/-- Without a gap before it, the registration is served with its own proof. -/
theorem location_leads_to_tx_dense :
    ∃ b ∈ blocksOf denseLog, ∃ (i : Nat) (tx : Transaction),
      (nodeOf denseLog).state.index.getTxLocation registryEnv.E (utf8 "a.bdns") =
        some ⟨b.index, i⟩ ∧
      b.transactions[i]? = some tx ∧ tx.domainName = utf8 "a.bdns" ∧
      ∃ response, queryDomain registryEnv.E clock 5 5 (nodeOf denseLog) (utf8 "a.bdns") =
          .ok (.ok response) ∧
        response.proof.txHash = registryEnv.E.sha256 (registryEnv.E.gobTx tx) := by
  obtain ⟨hLog, hDomain, hWritten, hSlots, hLinked, hLength⟩ :
      logAccepted (genesisState registryEnv, registryGenesis) denseLog = true ∧
        (afterLog denseLog).1.index.getDomain registryEnv.E (utf8 "a.bdns") =
          some (revealTx 4 1 3 [1] 1000) ∧
        (∀ b ∈ blocksOf denseLog, ∀ tx ∈ b.transactions, Writes tx →
          tx.domainName = utf8 "a.bdns") ∧
        (∀ b ∈ blocksOf denseLog, (∃ tx ∈ b.transactions, Writes tx) →
          b.slotNumber = b.index) ∧
        linked (Blockchain.Blockchain.addBlock {} registryGenesis) registryGenesis
          (logBlocks (genesisState registryEnv, registryGenesis) denseLog) = true ∧
        (blocksOf denseLog).length ≤ 5 := by
    decide +kernel
  have hNames : ∀ b ∈ blocksOf denseLog, ∀ tx ∈ b.transactions, Writes tx →
      tx.domainName ∈ ({utf8 "a.bdns"} : Set Bytes) := hWritten
  obtain ⟨tip, hTip, hStored⟩ := chainTo_nodeOf hLinked
  obtain ⟨b, hb, i, tx, hLoc, -, hTx, hName, -, -, hServed⟩ :=
    location_leads_to_tx (chain_afterLog hLog).1 hNames (Set.injOn_singleton _ _) hSlots
      (Set.mem_singleton _) hDomain
  obtain ⟨proof, hHash, hQuery, -⟩ := hServed (nodeOf denseLog) tip 5 clock 5 rfl hTip hStored
    hLength (by decide) (by decide +kernel)
  exact ⟨b, hb, i, tx, hLoc, hTx, hName, _, hQuery, hHash⟩

end Bdns.Safety
