import Bdns.Blockchain.StandIn
import Bdns.Blockchain.ValidateBlock

/-!
# The hashes of the state commit to the state

The ledger, the stakes, the unstake queue and the pending commits are hashed separately, each
from a concatenation of its own. Where all public keys have one length, every entry can be cut
off from what follows it, so what is hashed determines the part of the state.
-/

namespace Bdns.Blockchain

open Lib Std

/-! ## Keys of one length -/

/-- The hexadecimal form of a public key of `n` bytes. -/
def HexKey (n : Nat) (key : Bytes) : Prop := ∃ publicKey : Bytes, publicKey.length = n ∧
  key = hexEncode publicKey

theorem HexKey.append_inj {n : Nat} {key key' x y : Bytes} (hKey : HexKey n key)
    (hKey' : HexKey n key') (h : hexDecode key ++ x = hexDecode key' ++ y) :
    key = key' ∧ x = y := by
  obtain ⟨publicKey, hLength, rfl⟩ := hKey
  obtain ⟨publicKey', hLength', rfl⟩ := hKey'
  rw [hexDecode_hexEncode, hexDecode_hexEncode] at h
  obtain ⟨hSame, hRest⟩ := List.append_inj h (hLength.trans hLength'.symm)
  exact ⟨congrArg hexEncode hSame, hRest⟩

instance (n : Nat) (key : Bytes) : Decidable (HexKey n key) :=
  decidable_of_iff ((hexDecode key).length = n ∧ key = hexEncode (hexDecode key)) (by
    constructor
    · rintro ⟨hLength, hKey⟩
      exact ⟨hexDecode key, hLength, hKey⟩
    · rintro ⟨publicKey, hLength, rfl⟩
      rw [hexDecode_hexEncode]
      exact ⟨hLength, rfl⟩)

theorem HexKey.alnum {n : Nat} {key : Bytes} (hKey : HexKey n key) : Alnum key := by
  obtain ⟨publicKey, -, rfl⟩ := hKey
  exact hexEncode_alnum publicKey

/-- A state in which all public keys have `n` bytes, stakes are positive, and commits stand under
their own hashes. -/
structure ChainState.Keyed (n : Nat) (s : ChainState) : Prop where
  accounts : ∀ e ∈ s.ledger.accounts.toList, HexKey n e.1
  stakes : ∀ e ∈ s.stakes.stakeMap.entries.toList, HexKey n e.1 ∧ 0 < e.2.stakedBalance
  pendingUnstakes : ∀ e ∈ s.stakes.unstakeQueue.pending, HexKey n e.validatorHex
  commits : ∀ e ∈ s.commitStore.pending.toList,
    e.1 = e.2.key ∧ e.2.commitHash.length = 32 ∧ e.2.committerPK.length = n

/-- What the four hashes of a state digest. -/
def ChainState.hashed (s : ChainState) : Set Bytes :=
  {s.ledger.hashText, s.stakes.stakeMap.hashData, s.stakes.unstakeQueue.hashData,
    CommitStore.hashDataOf s.commitStore.pending}

/-! ## Reading the parts back -/

theorem StakeMap.eq_of_hashData_eq {n : Nat} {sm sm' : StakeMap}
    (hsm : ∀ e ∈ sm.entries.toList, HexKey n e.1 ∧ 0 < e.2.stakedBalance)
    (hsm' : ∀ e ∈ sm'.entries.toList, HexKey n e.1 ∧ 0 < e.2.stakedBalance)
    (h : sm.hashData = sm'.hashData) : sm = sm' := by
  have hAll : ∀ sm : StakeMap,
      (∀ e ∈ sm.entries.toList, HexKey n e.1 ∧ 0 < e.2.stakedBalance) →
      sm.entries.toList.filter (fun e => 0 < e.2.stakedBalance) = sm.entries.toList :=
    fun sm hsm => List.filter_eq_self.mpr fun e he => decide_eq_true (hsm e he).2
  have hList : sm.entries.toList = sm'.entries.toList := by
    unfold hashData at h
    rw [hAll sm hsm, hAll sm' hsm'] at h
    refine eq_of_flatMap_eq (P := fun e => HexKey n e.1) (fun e hNil => ?_) ?_
      (fun e he => (hsm e he).1) (fun e he => (hsm' e he).1) h
    · have hLength := congrArg List.length hNil
      simp at hLength
    · intro e e' x y he he' hText
      rw [List.append_assoc, List.append_assoc] at hText
      obtain ⟨hKey, hText⟩ := he.append_inj he' hText
      obtain ⟨hStake, hRest⟩ := uint64_append_inj hText
      exact ⟨Prod.ext hKey (congrArg StakeRecord.mk hStake), hRest⟩
  exact congrArg StakeMap.mk (ExtTreeMap.toList_inj.mp hList)

theorem UnstakeQueue.perm_of_hashData_eq {n : Nat} {uq uq' : UnstakeQueue}
    (huq : ∀ e ∈ uq.pending, HexKey n e.validatorHex)
    (huq' : ∀ e ∈ uq'.pending, HexKey n e.validatorHex) (h : uq.hashData = uq'.hashData) :
    uq.pending.Perm uq'.pending := by
  have hPerm := List.perm_insertionSort (fun a b => entryLe a b = true) uq.pending
  have hPerm' := List.perm_insertionSort (fun a b => entryLe a b = true) uq'.pending
  have hSorted : uq.pending.insertionSort (fun a b => entryLe a b = true) =
      uq'.pending.insertionSort (fun a b => entryLe a b = true) := by
    refine eq_of_flatMap_eq (P := fun e => HexKey n e.validatorHex) (fun e hNil => ?_) ?_
      (fun e he => huq e (hPerm.mem_iff.mp he)) (fun e he => huq' e (hPerm'.mem_iff.mp he)) h
    · have hLength := congrArg List.length hNil
      simp at hLength
    · intro e e' x y he he' hText
      simp only [List.append_assoc] at hText
      obtain ⟨hKey, hText⟩ := he.append_inj he' hText
      obtain ⟨hAmount, hText⟩ := uint64_append_inj hText
      obtain ⟨hSlot, hRest⟩ := uint64_append_inj hText
      obtain ⟨validatorHex, amount, matureSlot⟩ := e
      exact ⟨by rw [PendingUnstake.mk.injEq]; exact ⟨hKey, hAmount, hSlot⟩, hRest⟩
  exact hPerm.symm.trans (hSorted ▸ hPerm')

theorem CommitStore.eq_of_hashData_eq {n : Nat} {cs cs' : CommitStore}
    (hcs : ∀ e ∈ cs.pending.toList,
      e.1 = e.2.key ∧ e.2.commitHash.length = 32 ∧ e.2.committerPK.length = n)
    (hcs' : ∀ e ∈ cs'.pending.toList,
      e.1 = e.2.key ∧ e.2.commitHash.length = 32 ∧ e.2.committerPK.length = n)
    (h : hashDataOf cs.pending = hashDataOf cs'.pending) : cs = cs' := by
  have hList : cs.pending.toList = cs'.pending.toList := by
    refine eq_of_flatMap_eq (fun e hNil => ?_) ?_ hcs hcs' h
    · have hLength := congrArg List.length hNil
      simp [CommitRecord.hashData] at hLength
    · rintro ⟨key, rec⟩ ⟨key', rec'⟩ x y ⟨hKey, hHash, hCommitter⟩ ⟨hKey', hHash', hCommitter'⟩ hText
      simp only [CommitRecord.hashData, List.append_assoc] at hText
      obtain ⟨hHashes, hText⟩ := List.append_inj hText (hHash.trans hHash'.symm)
      obtain ⟨hCommitters, hText⟩ := List.append_inj hText (hCommitter.trans hCommitter'.symm)
      obtain ⟨hBlock, hText⟩ := intToByteArr_append_inj hText
      obtain ⟨hSlot, hText⟩ := intToByteArr_append_inj hText
      obtain ⟨hTID, hText⟩ := intToByteArr_append_inj hText
      obtain ⟨hExpiry, hRest⟩ := intToByteArr_append_inj hText
      have hRec : rec = rec' := by
        obtain ⟨commitHash, committerPK, commitBlock, commitSlot, commitTID, expiryBlock⟩ := rec
        rw [CommitRecord.mk.injEq]
        exact ⟨hHashes, hCommitters, hBlock, hSlot, hTID, hExpiry⟩
      dsimp only at hKey hKey'
      rw [hKey, hKey', hRec]
      exact ⟨rfl, hRest⟩
  exact congrArg CommitStore.mk (ExtTreeMap.toList_inj.mp hList)

/-! ## The four hashes -/

/-- Each hash determines its part of the state: the accounts with their balances and nonces, the
stakes, the pending unstakes up to their order, and the pending commits. -/
theorem parts_of_hashes_eq {E : External} {n : Nat} {s s' : ChainState} (hs : s.Keyed n)
    (hs' : s'.Keyed n) (hInj : Set.InjOn E.sha256 (s.hashed ∪ s'.hashed)) :
    (s.ledger.hash E = s'.ledger.hash E → s.ledger = s'.ledger) ∧
      (s.stakes.stakeMap.hash E = s'.stakes.stakeMap.hash E →
        s.stakes.stakeMap = s'.stakes.stakeMap) ∧
      (s.stakes.unstakeQueue.hash E = s'.stakes.unstakeQueue.hash E →
        s.stakes.unstakeQueue.pending.Perm s'.stakes.unstakeQueue.pending) ∧
      (s.commitStore.hash E = s'.commitStore.hash E → s.commitStore = s'.commitStore) := by
  have hData : ∀ x ∈ s.hashed, ∀ y ∈ s'.hashed, E.sha256 x = E.sha256 y → x = y :=
    fun x hx y hy h => hInj (.inl hx) (.inr hy) h
  refine ⟨fun h => ?_, fun h => ?_, fun h => ?_, fun h => ?_⟩
  · have hText := hData _ (by simp [ChainState.hashed]) _ (by simp [ChainState.hashed]) h
    exact BalanceLedger.eq_of_hashText_eq (fun e he => (hs.accounts e he).alnum)
      (fun e he => (hs'.accounts e he).alnum) hText
  · have hText := hData _ (by simp [ChainState.hashed]) _ (by simp [ChainState.hashed]) h
    exact StakeMap.eq_of_hashData_eq hs.stakes hs'.stakes hText
  · have hText := hData _ (by simp [ChainState.hashed]) _ (by simp [ChainState.hashed]) h
    exact UnstakeQueue.perm_of_hashData_eq hs.pendingUnstakes hs'.pendingUnstakes hText
  · have hText := hData _ (by simp [ChainState.hashed]) _ (by simp [ChainState.hashed]) h
    exact CommitStore.eq_of_hashData_eq hs.commits hs'.commits hText

/-- One account, one stake, one commit, and the given pending unstakes. -/
def StandIn.stateWith (pending : List PendingUnstake) : ChainState :=
  let commit : CommitRecord :=
    { commitHash := StandIn.digest [1], committerPK := utf8 "alice", commitBlock := 1
      commitSlot := 2, commitTID := 3, expiryBlock := 4 }
  { ledger := ⟨(∅ : ExtTreeMap Bytes AccountState compare).insert (hexEncode (utf8 "alice"))
      ⟨10, 1⟩⟩
    commitStore := CommitStore.addCommit {} commit
    stakes := ⟨StakeMap.addStake {} (hexEncode (utf8 "carol")) 200, ⟨pending⟩, fun _ => false⟩ }

/-- Two unstakes, in both orders. -/
def StandIn.unstakesOf : List PendingUnstake :=
  [⟨hexEncode (utf8 "carol"), 100, 7⟩, ⟨hexEncode (utf8 "alice"), 150, 5⟩]

theorem parts_of_hashes_eq_unstakes :
    (StandIn.stateWith StandIn.unstakesOf).stakes.unstakeQueue.hash (.standIn fun _ => none) =
        (StandIn.stateWith StandIn.unstakesOf.reverse).stakes.unstakeQueue.hash
          (.standIn fun _ => none) ∧
      (StandIn.stateWith StandIn.unstakesOf).stakes.unstakeQueue.pending.Perm
        (StandIn.stateWith StandIn.unstakesOf.reverse).stakes.unstakeQueue.pending := by
  have hKeyed : (StandIn.stateWith StandIn.unstakesOf).Keyed 5 :=
    ⟨by decide +kernel, by decide +kernel, by decide +kernel, by decide +kernel⟩
  have hKeyed' : (StandIn.stateWith StandIn.unstakesOf.reverse).Keyed 5 :=
    ⟨by decide +kernel, by decide +kernel, by decide +kernel, by decide +kernel⟩
  have hInj : Set.InjOn StandIn.digest ((StandIn.stateWith StandIn.unstakesOf).hashed ∪
      (StandIn.stateWith StandIn.unstakesOf.reverse).hashed) := by
    have hQueue : (StandIn.stateWith StandIn.unstakesOf.reverse).stakes.unstakeQueue.hashData =
        (StandIn.stateWith StandIn.unstakesOf).stakes.unstakeQueue.hashData := by decide +kernel
    have hSame : (StandIn.stateWith StandIn.unstakesOf.reverse).hashed =
        (StandIn.stateWith StandIn.unstakesOf).hashed := by
      unfold ChainState.hashed
      rw [hQueue]
      rfl
    let s := StandIn.stateWith StandIn.unstakesOf
    rw [hSame, Set.union_self]
    refine StandIn.injOn_of_forall [s.ledger.hashText, s.stakes.stakeMap.hashData,
      s.stakes.unstakeQueue.hashData, CommitStore.hashDataOf s.commitStore.pending] ?_
      (by decide +kernel)
    rintro x (rfl | rfl | rfl | rfl)
    all_goals simp [s]
  have hHash : (StandIn.stateWith StandIn.unstakesOf).stakes.unstakeQueue.hash
      (.standIn fun _ => none) =
        (StandIn.stateWith StandIn.unstakesOf.reverse).stakes.unstakeQueue.hash
          (.standIn fun _ => none) := by decide +kernel
  exact ⟨hHash, (parts_of_hashes_eq (E := .standIn fun _ => none) hKeyed hKeyed' hInj).2.2.1 hHash⟩

end Bdns.Blockchain
