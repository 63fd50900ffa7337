import Bdns.Blockchain.Headroom
import Bdns.Network.Node
import Bdns.Safety.Applied
import Bdns.Safety.Commutation
import Bdns.Safety.Parallel

/-!
# A run with one more COMMIT

Two runs from one state. A block of the second run holds one COMMIT more than that of the first;
the later blocks hold the same transactions. The states of the two runs then differ in few
places [`Behind`]: the signer of the COMMIT has paid its fee and has used one nonce, the leader of
that block has the fee, the commit is pending in the second run only, and the index keeps other
locations of transactions. This is followed through the three passes over a block and the
installation of what they stage.
-/

namespace Bdns.Safety

open Lib Blockchain Network Index Validation Std

/-! ## Coins -/

/-- The coins that moves bring to an account, in the arithmetic of `uint64`. -/
def coinsOf (ms : List (Bytes × UInt64 × UInt64)) (k : Bytes) : UInt64 :=
  (ms.map fun m => if m.1 = k then m.2.1 else 0).sum

def noncesOf (ms : List (Bytes × UInt64 × UInt64)) (k : Bytes) : UInt64 :=
  (ms.map fun m => if m.1 = k then m.2.2 else 0).sum

theorem getBalance_shift (bl : BalanceLedger) (m : Bytes × UInt64 × UInt64) (k : Bytes) :
    (shift bl m).getBalance k = bl.getBalance k + if m.1 = k then m.2.1 else 0 := by
  simp only [BalanceLedger.getBalance, shift, BalanceLedger.account_set]
  split
  · rename_i hk
    rw [hk]
  · rw [add_zero]

theorem getNonce_shift (bl : BalanceLedger) (m : Bytes × UInt64 × UInt64) (k : Bytes) :
    (shift bl m).getNonce k = bl.getNonce k + if m.1 = k then m.2.2 else 0 := by
  simp only [BalanceLedger.getNonce, shift, BalanceLedger.account_set]
  split
  · rename_i hk
    rw [hk]
  · rw [add_zero]

theorem getBalance_foldl_shift (ms : List (Bytes × UInt64 × UInt64)) (bl : BalanceLedger)
    (k : Bytes) : (ms.foldl shift bl).getBalance k = bl.getBalance k + coinsOf ms k := by
  induction ms generalizing bl with
  | nil => simp [coinsOf]
  | cons m ms ih =>
    rw [List.foldl_cons, ih, getBalance_shift, add_assoc]
    rfl

theorem getNonce_foldl_shift (ms : List (Bytes × UInt64 × UInt64)) (bl : BalanceLedger)
    (k : Bytes) : (ms.foldl shift bl).getNonce k = bl.getNonce k + noncesOf ms k := by
  induction ms generalizing bl with
  | nil => simp [noncesOf]
  | cons m ms ih =>
    rw [List.foldl_cons, ih, getNonce_shift, add_assoc]
    rfl

/-- Of two ledgers the second is one COMMIT ahead. -/
structure Charged (c : Transaction) (slotLeader : Bytes) (l l' : BalanceLedger) : Prop where
  balance : ∀ k, l'.getBalance k = l.getBalance k -
    (if hexEncode c.ownerKey = k then c.fee else 0) +
    if hexEncode slotLeader = k then c.fee else 0
  nonce : ∀ k, l'.getNonce k = l.getNonce k + if hexEncode c.ownerKey = k then 1 else 0

section Coins

variable {c : Transaction} {slotLeader : Bytes} {l l' : BalanceLedger}

theorem Charged.foldl_shift (h : Charged c slotLeader l l')
    (ms : List (Bytes × UInt64 × UInt64)) :
    Charged c slotLeader (ms.foldl shift l) (ms.foldl shift l') where
  balance k := by
    rw [getBalance_foldl_shift, getBalance_foldl_shift, h.balance k]
    grind
  nonce k := by
    rw [getNonce_foldl_shift, getNonce_foldl_shift, h.nonce k]
    grind

theorem getBalance_creditFees (txs : List Transaction) (slotLeader : Bytes) (l : BalanceLedger)
    (k : Bytes) : (creditFees txs slotLeader l).getBalance k =
      l.getBalance k + if hexEncode slotLeader = k then totalFees txs else 0 := by
  unfold creditFees
  split
  · rw [credit_eq_shift, getBalance_shift]
  · rename_i hNone
    have hZero : totalFees txs = 0 := by
      rw [UInt64.not_lt] at hNone
      exact UInt64.le_zero_iff.mp hNone
    rw [hZero, ite_self, add_zero]

theorem Charged.creditFees (h : Charged c slotLeader l l') (txs : List Transaction)
    (leader : Bytes) :
    Charged c slotLeader (creditFees txs leader l) (creditFees txs leader l') where
  balance k := by
    rw [getBalance_creditFees, getBalance_creditFees, h.balance k]
    grind
  nonce k := by rw [getNonce_creditFees, getNonce_creditFees, h.nonce k]

theorem totalFees_eq_sum (txs : List Transaction) :
    totalFees txs = (txs.map Transaction.fee).sum := by
  rw [totalFees, List.sum_eq_foldl, List.foldl_map]

/-- The moves of a COMMIT. -/
theorem coinsOf_commit (hType : c.type = .commit) (k : Bytes) :
    coinsOf (moves c) k = -(if hexEncode c.ownerKey = k then c.fee else 0) := by
  simp only [coinsOf, moves, feeMoves, fundMoves, bondMoves, hType, reduceCtorEq, false_and,
    if_false, List.append_nil]
  split
  · by_cases hk : hexEncode c.ownerKey = k <;> simp [hk]
  · rename_i hNone
    have hZero : c.fee = 0 := UInt64.le_zero_iff.mp (UInt64.not_lt.mp hNone)
    simp [hZero]

theorem noncesOf_commit (hType : c.type = .commit) (k : Bytes) :
    noncesOf (moves c) k = if hexEncode c.ownerKey = k then 1 else 0 := by
  simp only [noncesOf, moves, feeMoves, fundMoves, bondMoves, hType, reduceCtorEq, false_and,
    if_false, List.append_nil]
  split <;> simp

/-- The ledger pass over a list with and without the COMMIT, and the fees of the leader. -/
theorem charged_insert (hType : c.type = .commit) (hKey : c.ownerKey.length ≠ 0)
    (pre post : List Transaction) (l : BalanceLedger) :
    Charged c slotLeader
      (creditFees (pre ++ post) slotLeader (((pre ++ post).flatMap signedMoves).foldl shift l))
      (creditFees (pre ++ c :: post) slotLeader
        (((pre ++ c :: post).flatMap signedMoves).foldl shift l)) := by
  have hMoves : signedMoves c = moves c := if_neg hKey
  constructor
  · intro k
    have hCoins : coinsOf ((pre ++ c :: post).flatMap signedMoves) k =
        coinsOf ((pre ++ post).flatMap signedMoves) k -
          if hexEncode c.ownerKey = k then c.fee else 0 := by
      have hCommit := coinsOf_commit hType k
      simp only [coinsOf] at hCommit ⊢
      simp only [List.flatMap_append, List.flatMap_cons, List.map_append, List.sum_append, hMoves,
        hCommit]
      grind
    have hFees : totalFees (pre ++ c :: post) = totalFees (pre ++ post) + c.fee := by
      simp only [totalFees_eq_sum, List.map_append, List.map_cons, List.sum_append, List.sum_cons]
      grind
    rw [getBalance_creditFees, getBalance_creditFees, getBalance_foldl_shift,
      getBalance_foldl_shift, hCoins, hFees]
    split <;> grind
  · intro k
    have hNonces : noncesOf ((pre ++ c :: post).flatMap signedMoves) k =
        noncesOf ((pre ++ post).flatMap signedMoves) k +
          if hexEncode c.ownerKey = k then 1 else 0 := by
      have hCommit := noncesOf_commit hType k
      simp only [noncesOf] at hCommit ⊢
      simp only [List.flatMap_append, List.flatMap_cons, List.map_append, List.sum_append, hMoves,
        hCommit]
      grind
    rw [getNonce_creditFees, getNonce_creditFees, getNonce_foldl_shift, getNonce_foldl_shift,
      hNonces, add_assoc]

/-- The accounts of others are not lower, where no sum wraps around. -/
theorem Charged.balance_le (h : Charged c slotLeader l l')
    (hFit : l.supply + c.fee.toNat < 2 ^ 64) {k : Bytes} (hk : k ≠ hexEncode c.ownerKey) :
    (l.getBalance k).toNat ≤ (l'.getBalance k).toNat := by
  rw [h.balance k, if_neg hk.symm]
  have hLe := l.getBalance_le_supply k
  split
  · rw [UInt64.toNat_add, UInt64.sub_zero, Nat.mod_eq_of_lt (by omega)]
    omega
  · simp

/-- An account that is neither that of the signer nor that of the leader. -/
theorem Charged.balance_eq (h : Charged c slotLeader l l') {k : Bytes}
    (hSigner : k ≠ hexEncode c.ownerKey) (hLeader : k ≠ hexEncode slotLeader) :
    l'.getBalance k = l.getBalance k := by
  rw [h.balance k, if_neg hSigner.symm, if_neg hLeader.symm]
  simp

/-- A payment that both ledgers cover, or neither. -/
theorem Charged.pays (h : Charged c slotLeader l l') {k : Bytes} {price : UInt64}
    (hBoth : price ≤ l.getBalance k ↔ price ≤ l'.getBalance k) :
    Lockstep (Lockstep fun paid paid' => ∀ seller, Charged c slotLeader (paid.credit seller price)
        (paid'.credit seller price)) (l.debit k price) (l'.debit k price) := by
  by_cases hCovered : price ≤ l.getBalance k
  · have hDebit := BalanceLedger.debit_of_le hCovered
    have hDebit' := BalanceLedger.debit_of_le (hBoth.mp hCovered)
    have hPaid := debit_eq_shift hDebit
    have hPaid' := debit_eq_shift hDebit'
    rw [hDebit, hDebit']
    intro seller
    rw [hPaid, hPaid', credit_eq_shift, credit_eq_shift]
    exact h.foldl_shift [(k, -price, 0), (seller, price, 0)]
  · have hCovered' : ¬ price ≤ l'.getBalance k := fun hLe => hCovered (hBoth.mpr hLe)
    unfold BalanceLedger.debit
    rw [if_pos (UInt64.not_le.mp hCovered), if_pos (UInt64.not_le.mp hCovered')]
    exact .bind_same fun short _ => trivial

end Coins

/-! ## Pending commits -/

/-- Two overlays that differ at one commit only. -/
structure OffKey (key : Bytes) (co co' : CommitOverlay) : Prop where
  base : ∀ k ≠ key, co'.base[k]? = co.base[k]?
  added : ∀ k ≠ key, co'.added[k]? = co.added[k]?
  consumed : ∀ k ≠ key, co'.consumed k = co.consumed k
  purged : ∀ k ≠ key, co'.purged k = co.purged k
  blockIndex : co'.blockIndex = co.blockIndex

section Commits

variable {key : Bytes} {co co' : CommitOverlay}

theorem OffKey.refl (co : CommitOverlay) : OffKey key co co :=
  ⟨fun _ _ => rfl, fun _ _ => rfl, fun _ _ => rfl, fun _ _ => rfl, rfl⟩

theorem OffKey.getCommit (h : OffKey key co co') {k : Bytes} (hk : k ≠ key) :
    co'.getCommit k = co.getCommit k := by
  unfold CommitOverlay.getCommit
  rw [h.consumed k hk, h.purged k hk, h.added k hk, h.base k hk, h.blockIndex]

theorem OffKey.addCommit (h : OffKey key co co') (record : CommitRecord) :
    OffKey key (co.addCommit record) (co'.addCommit record) := by
  refine ⟨h.base, fun k hk => ?_, h.consumed, h.purged, h.blockIndex⟩
  simp only [CommitOverlay.addCommit, getElem?_insert_eq_ite, h.added k hk]

/-- The second overlay gets the commit. -/
theorem OffKey.addOwn (h : OffKey key co co') {record : CommitRecord} (hRecord : record.key = key) :
    OffKey key co (co'.addCommit record) := by
  refine ⟨h.base, fun k hk => ?_, h.consumed, h.purged, h.blockIndex⟩
  simp only [CommitOverlay.addCommit, getElem?_insert_eq_ite, hRecord, if_neg hk.symm,
    h.added k hk]

theorem OffKey.consumeCommit (h : OffKey key co co') (opened : Bytes) :
    OffKey key (co.consumeCommit opened) (co'.consumeCommit opened) := by
  refine ⟨h.base, fun k hk => ?_, fun k hk => ?_, h.purged, h.blockIndex⟩
  · simp only [CommitOverlay.consumeCommit, getElem?_erase_eq_ite, h.added k hk]
  · simp only [CommitOverlay.consumeCommit, Function.update_apply, h.consumed k hk]

variable {cs cs' : CommitStore}

/-- The overlays of two stores in which a block starts. -/
theorem offKey_openCommits (h : ∀ k ≠ key, cs'.getCommit k = cs.getCommit k) (blockIndex : Int64) :
    OffKey key (openCommits cs blockIndex) (openCommits cs' blockIndex) where
  base := h
  added _ _ := rfl
  consumed _ _ := rfl
  purged k hk := by
    have hBase : cs'.pending[k]? = cs.pending[k]? := h k hk
    simp only [openCommits, CommitOverlay.purgeExpired, CommitOverlay.newCommitOverlay, hBase]
  blockIndex := rfl

theorem OffKey.commit (h : OffKey key co co')
    (hStores : ∀ k ≠ key, cs'.getCommit k = cs.getCommit k) :
    ∀ k ≠ key, (co'.commit cs').getCommit k = (co.commit cs).getCommit k := by
  intro k hk
  rw [CommitOverlay.getCommit_commit, CommitOverlay.getCommit_commit, h.consumed k hk,
    h.purged k hk, h.added k hk, hStores k hk]

end Commits

/-! ## The index -/

section Index

variable {E : External} {slotsPerDay : Int64}

theorem EntryAlike.eq_txIndex {e e' : OverlayEntry} (h : EntryAlike Eq e e') :
    ∃ txIndex, e' = { e with txIndex } := by
  obtain ⟨tx, txIndex, hTx, -, rfl⟩ := h
  refine ⟨txIndex, ?_⟩
  have hSame : tx = e.tx := by
    generalize e.tx = old at hTx
    cases hTx with
    | none => rfl
    | some hAlike =>
      obtain ⟨records, rfl, rfl⟩ := hAlike
      rfl
  rw [hSame]

/-- A journal entry goes to two indexes that differ in locations. -/
theorem commitEntry_relocated {im im' : IndexManager}
    (hIm : ∃ txLocations, im' = relocated im txLocations) {e e' : Bytes × OverlayEntry}
    (hKey : e.1 = e'.1) (hEntry : EntryAlike Eq e.2 e'.2) :
    ∃ txLocations, IndexOverlay.commitEntry E slotsPerDay im' e' =
      relocated (IndexOverlay.commitEntry E slotsPerDay im e) txLocations := by
  obtain ⟨txLocations, rfl⟩ := hIm
  obtain ⟨d, e⟩ := e
  obtain ⟨d', e'⟩ := e'
  obtain rfl : d = d' := hKey
  obtain ⟨txIndex, rfl⟩ := hEntry.eq_txIndex
  have hAdded : ∃ txLocations', IndexOverlay.addEntry E slotsPerDay (relocated im txLocations)
      (d, { e with txIndex }) = relocated (IndexOverlay.addEntry E slotsPerDay im (d, e))
        txLocations' := by
    have hTx : ({ e with txIndex } : OverlayEntry).addedTx = e.addedTx := rfl
    unfold IndexOverlay.addEntry
    dsimp only
    rw [hTx]
    cases e.addedTx with
    | none => exact ⟨txLocations, rfl⟩
    | some tx => exact ⟨_, rfl⟩
  obtain ⟨txLocations', hAdded⟩ := hAdded
  refine ⟨txLocations', ?_⟩
  unfold IndexOverlay.commitEntry
  dsimp only
  rw [hAdded]
  split <;> split <;> rfl

theorem foldl_commitEntry_relocated {im im' : IndexManager}
    (hIm : ∃ txLocations, im' = relocated im txLocations) {es es' : List (Bytes × OverlayEntry)}
    (hEntries : List.Forall₂ (fun e e' => e.1 = e'.1 ∧ EntryAlike Eq e.2 e'.2) es es') :
    ∃ txLocations, es'.foldl (IndexOverlay.commitEntry E slotsPerDay) im' =
      relocated (es.foldl (IndexOverlay.commitEntry E slotsPerDay) im) txLocations := by
  induction hEntries generalizing im im' with
  | nil => exact hIm
  | cons hFirst _ ih =>
    rw [List.foldl_cons, List.foldl_cons]
    exact ih (commitEntry_relocated hIm hFirst.1 hFirst.2)

/-- Overlays that are alike are committed to indexes that differ in locations. -/
theorem OverlayAlike.commit {o o' : IndexOverlay} (h : OverlayAlike Eq o o')
    {range range' : List (Bytes × OverlayEntry) → List (Bytes × OverlayEntry)}
    (hPerm : ∀ xs, (range xs).Perm xs) (hPerm' : ∀ xs, (range' xs).Perm xs)
    (hWalk : WalkAlike range range') {im im' : IndexManager}
    (hIm : ∃ txLocations, im' = relocated im txLocations) :
    ∃ txLocations, o'.commit E range' im' = relocated (o.commit E range im) txLocations := by
  have hKeys := hWalk _ _ h.keys_eq
  obtain ⟨journal, locations, hJournal, rfl⟩ := h
  have hEntries := forall₂_of_keys hKeys fun d e e' he he' =>
    rel_of_mem_toList hJournal ((hPerm _).mem_iff.mp he) ((hPerm' _).mem_iff.mp he')
  obtain ⟨txLocations, hFold⟩ :=
    @foldl_commitEntry_relocated E o.slotsPerDay im im' hIm _ _ hEntries
  refine ⟨txLocations, ?_⟩
  unfold IndexOverlay.commit
  dsimp only at hFold ⊢
  rw [hFold]
  rfl

end Index

/-! ## The domain pass -/

section Pass

variable {env : Env} {order order' : JournalOrder} {slot blockIndex : Int64}
  {start start' st st' final final' : DomainState} {c tx : Transaction} {slotLeader key : Bytes}

/-- The states of the two domain passes. -/
abbrev PassAlike (c : Transaction) (slotLeader : Bytes) : DomainState → DomainState → Prop :=
  StateAlike Eq (Charged c slotLeader) (OffKey (hexEncode c.commitHash))

/-- One transaction in both passes: no REVEAL opens the commit, and a BUY is covered in both or in
neither. -/
theorem sideBySide_insertion {i i' : Nat} (hWalk : WalkAlike (order.run i) (order'.run i'))
    (hAlike : PassAlike c slotLeader st st')
    (hHash : hexEncode c.commitHash ∉ commitKeys env.E tx)
    (hBuy : tx.type = .buy →
      (st.im.getListPrice env.E tx.domainName ≤ st.ledger.getBalance (hexEncode tx.ownerKey) ↔
        st.im.getListPrice env.E tx.domainName ≤ st'.ledger.getBalance (hexEncode tx.ownerKey))) :
    SideBySide Eq (Charged c slotLeader) (OffKey (hexEncode c.commitHash)) env.E
      (env.position order slot blockIndex i) (env.position order' slot blockIndex i') tx tx
      st st' where
  transaction := .refl tx
  state := hAlike
  position := ⟨i', order'.run i', rfl⟩
  redeems := redeemsOwnDomain_alike hWalk (.refl tx) hAlike.im
  lengths _ _ hEq := congrArg List.length hEq
  commits _ record _ := hAlike.cs.addCommit record
  reveals hType := by
    have hOther : revealKey env.E tx ≠ hexEncode c.commitHash := by
      intro hEq
      exact hHash (hEq ▸ by simp [commitKeys, hType])
    rw [hAlike.cs.getCommit hOther]
    exact ⟨rfl, hAlike.cs.consumeCommit _⟩
  pays hType price hPrice := by
    subst hPrice
    exact hAlike.ledger.pays (hBuy hType)

/-- Two passes over the same rest of a list. -/
theorem domainPass_beside {before before' rest : List Transaction}
    (hStep : ∀ middle tx after st st', rest = middle ++ tx :: after →
      domainPass env order slot blockIndex (before ++ middle) start = .ok st →
      domainPass env order' slot blockIndex (before' ++ middle) start' = .ok st' →
      PassAlike c slotLeader st st' →
      SideBySide Eq (Charged c slotLeader) (OffKey (hexEncode c.commitHash)) env.E
        (env.position order slot blockIndex (before ++ middle).length)
        (env.position order' slot blockIndex (before' ++ middle).length) tx tx st st')
    (hBefore : domainPass env order slot blockIndex before start = .ok st)
    (hBefore' : domainPass env order' slot blockIndex before' start' = .ok st')
    (hAlike : PassAlike c slotLeader st st')
    (hAll : domainPass env order slot blockIndex (before ++ rest) start = .ok final)
    (hAll' : domainPass env order' slot blockIndex (before' ++ rest) start' = .ok final') :
    PassAlike c slotLeader final final' := by
  induction rest using List.reverseRecOn generalizing final final' with
  | nil =>
    rw [List.append_nil] at hAll hAll'
    obtain rfl := Except.ok.inj (hBefore.symm.trans hAll)
    obtain rfl := Except.ok.inj (hBefore'.symm.trans hAll')
    exact hAlike
  | append_singleton rest tx ih =>
    rw [← List.append_assoc, domainPass_append_singleton] at hAll hAll'
    obtain ⟨st₁, hRest, hLast⟩ := bind_eq_ok.mp hAll
    obtain ⟨st₁', hRest', hLast'⟩ := bind_eq_ok.mp hAll'
    obtain ⟨⟨st₂, err⟩, hApply, hSame⟩ := bind_eq_ok.mp hLast
    obtain ⟨⟨st₂', err'⟩, hApply', hSame'⟩ := bind_eq_ok.mp hLast'
    obtain rfl := pure_eq_ok.mp hSame
    obtain rfl := pure_eq_ok.mp hSame'
    have hMiddle : PassAlike c slotLeader st₁ st₁' := by
      refine ih (fun middle u after st st' hSplit => ?_) hRest hRest'
      exact hStep middle u (after ++ [tx]) st st' (by rw [hSplit]; simp)
    obtain ⟨result, hResult, hNext⟩ :=
      (hStep rest tx [] st₁ st₁' rfl hRest hRest' hMiddle).applyDomainMutations.exists_ok hApply
    obtain rfl := Except.ok.inj (hApply'.symm.trans hResult)
    exact hNext

/-- The COMMIT itself, which only the second pass applies. -/
theorem PassAlike.applyCommit (h : PassAlike c slotLeader st st') (hType : c.type = .commit)
    {pos : Position} {err : Option Bytes} {next : DomainState}
    (hApply : applyDomainMutations env.E pos c st' = .ok (next, err)) :
    PassAlike c slotLeader st next := by
  unfold applyDomainMutations at hApply
  rw [hType] at hApply
  dsimp only at hApply
  unfold Blockchain.applyCommit at hApply
  split at hApply
  · cases hApply
  · obtain ⟨rfl, -⟩ := Prod.mk.inj (pure_eq_ok.mp hApply)
    exact ⟨h.im, h.ledger, h.cs.addOwn rfl⟩

end Pass

/-! ## The stake pass -/

theorem stakePass_insert {E : External} {slot : Int64} {c : Transaction} (hType : c.type = .commit)
    (pre post : List Transaction) (s : StakeState) :
    stakePass E slot (pre ++ c :: post) s = stakePass E slot (pre ++ post) s := by
  have hNothing : ∀ s, applyStakeMutations E slot c s = .ok s := by
    intro s
    unfold applyStakeMutations
    rw [hType]
    split <;> rfl
  unfold stakePass
  simp only [List.foldlM_append, List.foldlM_cons, hNothing, bind, Except.bind]

end Bdns.Safety
