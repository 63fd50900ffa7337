import Bdns.Blockchain.StandIn
import Bdns.Lib.SortedAssoc

/-!
# What a signature covers

Both `SerializeForSigning` methods write their fields one after the other. A transaction
has several fields of variable length, and most of them stand without a length in front: the
bytes determine the transaction only together with its layout, that is, with the lengths of
these fields. A block is signed over fields whose lengths the program fixes, but over fewer
of them than its hash covers.
-/

namespace Bdns.Blockchain

open Lib Std

/-! ## Records up to order -/

/-- The order of `SortRecords` as a comparison. -/
def Record.cmp : Record → Record → Ordering :=
  compareLex (compareOn Record.type) (compareLex (compareOn Record.priority) (compareOn Record.value))

instance : TransCmp Record.cmp :=
  inferInstanceAs (TransCmp (compareLex (compareOn Record.type)
    (compareLex (compareOn Record.priority) (compareOn Record.value))))

theorem Record.le_eq (a b : Record) : a.le b = (Record.cmp a b).isLE := rfl

theorem Record.le_total (a b : Record) : a.le b = true ∨ b.le a = true := by
  have hSwap : Record.cmp b a = (Record.cmp a b).swap := OrientedCmp.eq_swap
  rw [Record.le_eq, Record.le_eq, hSwap]
  cases Record.cmp a b <;> simp

theorem Record.le_trans {a b c : Record} (hab : a.le b = true) (hbc : b.le c = true) :
    a.le c = true := by
  have h : (Record.cmp a c).isLE := TransCmp.isLE_trans hab hbc
  exact h

theorem Record.le_antisymm {a b : Record} (hab : a.le b = true) (hba : b.le a = true) : a = b := by
  have hEq : Record.cmp a b = .eq := by
    have hSwap : Record.cmp b a = (Record.cmp a b).swap := OrientedCmp.eq_swap
    rw [Record.le_eq] at hab hba
    rw [hSwap] at hba
    cases h : Record.cmp a b <;> simp_all
  simp only [Record.cmp, compareLex, compareOn, Ordering.then_eq_eq] at hEq
  obtain ⟨hType, hPriority, hValue⟩ := hEq
  exact Record.ext (LawfulEqCmp.eq_of_compare hType) (LawfulEqCmp.eq_of_compare hValue)
    (LawfulEqCmp.eq_of_compare hPriority)

/-- Sorting forgets the order of the records and nothing else. -/
theorem sortRecords_eq_iff {rs rs' : List Record} :
    sortRecords rs = sortRecords rs' ↔ rs.Perm rs' := by
  let le : Record → Record → Prop := fun a b => a.le b = true
  have : Std.Total le := ⟨Record.le_total⟩
  have : IsTrans Record le := ⟨fun _ _ _ => Record.le_trans⟩
  constructor
  · intro h
    have hPerm : (sortRecords rs).Perm rs' := h ▸ List.perm_insertionSort le rs'
    exact (List.perm_insertionSort le rs).symm.trans hPerm
  · intro h
    refine List.Perm.eq_of_pairwise (fun a b _ _ => Record.le_antisymm)
      (List.pairwise_insertionSort le rs) (List.pairwise_insertionSort le rs') ?_
    exact (List.perm_insertionSort le rs).trans (h.trans (List.perm_insertionSort le rs').symm)

/-! ## Transactions -/

/-- The lengths of the fields of variable length. `StakeAmount` is written where it is positive. -/
structure Layout where
  domainName : Nat
  /-- Type and value of each record, in the order of signing. -/
  records : List (Nat × Nat)
  ownerKey : Nat
  recipient : Nat
  commitHash : Nat
  salt : Nat
  stakeAmount : Bool
  equivBlockA : Nat
  equivBlockB : Nat
  deriving DecidableEq

def Transaction.layout (tx : Transaction) : Layout where
  domainName := tx.domainName.length
  records := (sortRecords tx.records).map fun r => (r.type.length, r.value.length)
  ownerKey := tx.ownerKey.length
  recipient := tx.recipient.length
  commitHash := tx.commitHash.length
  salt := tx.salt.length
  stakeAmount := 0 < tx.stakeAmount
  equivBlockA := tx.equivBlockA.length
  equivBlockB := tx.equivBlockB.length

/-- Two transactions with the same fields but for the signature, and the same records up to order. -/
structure Transaction.SameContent (a b : Transaction) : Prop where
  records : a.records.Perm b.records
  fields : { a with records := [], signature := [] } = { b with records := [], signature := [] }

section Fields

variable {x y : Bytes}

theorem optionalField_append_inj {a b : Bytes} (hLength : a.length = b.length)
    (h : optionalField a ++ x = optionalField b ++ y) : a = b ∧ x = y := by
  unfold optionalField at h
  rw [hLength] at h
  split at h
  · rw [List.append_assoc, List.append_assoc] at h
    exact List.append_inj (List.append_cancel_left h) hLength
  · rename_i hEmpty
    have hb : b = [] := List.length_eq_zero_iff.mp (by omega)
    have ha : a = [] := List.length_eq_zero_iff.mp (by omega)
    exact ⟨ha.trans hb.symm, h⟩

theorem stakeAmount_append_inj {a b : UInt64} (hPos : decide (0 < a) = decide (0 < b))
    (h : (if 0 < a then intToByteArr a.toInt64 else []) ++ x =
      (if 0 < b then intToByteArr b.toInt64 else []) ++ y) : a = b ∧ x = y := by
  by_cases ha : 0 < a
  · have hb : 0 < b := by simpa [ha] using hPos
    rw [if_pos ha, if_pos hb] at h
    exact uint64_append_inj h
  · have hb : ¬ 0 < b := by simpa [ha] using hPos
    rw [if_neg ha, if_neg hb] at h
    simp only [UInt64.pos_iff_ne_zero, ne_eq, not_not] at ha hb
    exact ⟨ha.trans hb.symm, h⟩

theorem records_append_inj {rs rs' : List Record}
    (hLayout : (rs.map fun r => (r.type.length, r.value.length)) =
      rs'.map fun r => (r.type.length, r.value.length))
    (h : rs.flatMap (fun r => r.type ++ r.value ++ intToByteArr r.priority) ++ x =
      rs'.flatMap (fun r => r.type ++ r.value ++ intToByteArr r.priority) ++ y) :
    rs = rs' ∧ x = y := by
  induction rs generalizing rs' with
  | nil =>
    obtain rfl : rs' = [] := List.map_eq_nil_iff.mp hLayout.symm
    exact ⟨rfl, h⟩
  | cons r rs ih =>
    cases rs' with
    | nil => simp at hLayout
    | cons r' rs' =>
      simp only [List.map_cons, List.cons.injEq, Prod.mk.injEq] at hLayout
      obtain ⟨⟨hTypeLength, hValueLength⟩, hRest⟩ := hLayout
      simp only [List.flatMap_cons, List.append_assoc] at h
      obtain ⟨hType, h⟩ := List.append_inj h hTypeLength
      obtain ⟨hValue, h⟩ := List.append_inj h hValueLength
      obtain ⟨hPriority, h⟩ := intToByteArr_append_inj h
      obtain ⟨rfl, hEnd⟩ := ih hRest (by simpa only [List.append_assoc] using h)
      exact ⟨by rw [Record.ext hType hValue hPriority], hEnd⟩

end Fields

/-- Transactions of one layout are determined by their bytes. -/
theorem sameContent_of_layout {a b : Transaction} (hLayout : a.layout = b.layout)
    (h : a.serializeForSigning = b.serializeForSigning) : a.SameContent b := by
  simp only [Transaction.layout, Layout.mk.injEq] at hLayout
  obtain ⟨hDomain, hRecords, hOwner, hRecipient, hCommit, hSalt, hStake, hA, hB⟩ := hLayout
  simp only [Transaction.serializeForSigning, List.append_assoc, List.cons_append,
    List.nil_append] at h
  obtain ⟨hTid, h⟩ := intToByteArr_append_inj h
  obtain ⟨hType, h⟩ := List.cons.inj h
  obtain ⟨hTimestamp, h⟩ := intToByteArr_append_inj h
  obtain ⟨hDomain, h⟩ := List.append_inj h hDomain
  obtain ⟨hRecords, h⟩ := records_append_inj hRecords (by simpa only [List.append_assoc] using h)
  obtain ⟨hCacheTTL, h⟩ := intToByteArr_append_inj h
  obtain ⟨hExpiry, h⟩ := intToByteArr_append_inj h
  obtain ⟨hRedeems, h⟩ := intToByteArr_append_inj h
  obtain ⟨hOwner, h⟩ := List.append_inj h hOwner
  obtain ⟨hFee, h⟩ := uint64_append_inj h
  obtain ⟨hNonce, h⟩ := uint64_append_inj h
  obtain ⟨hPrice, h⟩ := uint64_append_inj h
  obtain ⟨hRecipient, h⟩ := List.append_inj h hRecipient
  obtain ⟨hCommit, h⟩ := optionalField_append_inj hCommit h
  obtain ⟨hSalt, h⟩ := optionalField_append_inj hSalt h
  obtain ⟨hStake, h⟩ := stakeAmount_append_inj hStake h
  obtain ⟨hA, h⟩ := optionalField_append_inj hA h
  obtain ⟨hB, -⟩ := optionalField_append_inj (x := []) (y := []) hB (by simpa using h)
  refine ⟨sortRecords_eq_iff.mp hRecords, ?_⟩
  exact Transaction.ext hTid (TransactionType.toByte_injective hType) hTimestamp hDomain rfl
    hCacheTTL hExpiry hRedeems hOwner hFee hNonce hPrice hRecipient rfl hCommit hSalt hStake hA hB

theorem Transaction.SameContent.layout_eq {a b : Transaction} (h : a.SameContent b) :
    a.layout = b.layout := by
  have hFields := Transaction.ext_iff.mp h.fields
  have hSort := sortRecords_eq_iff.mpr h.records
  unfold Transaction.layout
  simp_all

/-- Two transactions with the same bytes have the same content exactly where they have the same
layout. -/
theorem signature_binds_iff_layout {a b : Transaction}
    (h : a.serializeForSigning = b.serializeForSigning) :
    a.SameContent b ↔ a.layout = b.layout :=
  ⟨fun hSame => hSame.layout_eq, fun hLayout => sameContent_of_layout hLayout h⟩

/-- An UPDATE by the stand-in's `owner`. -/
def signedUpdate (records : List Record) : Transaction :=
  StandIn.signAs (utf8 "owner")
    { tid := 1, type := .update, domainName := utf8 "a.bdns", records, ownerKey := utf8 "owner" }

def mailRecord : Record := ⟨utf8 "MX", utf8 "mail.a.bdns", 10⟩

def hostRecord : Record := ⟨utf8 "A", utf8 "1.2.3.4", 0⟩

theorem signature_binds_iff_layout_reordered :
    (signedUpdate [mailRecord, hostRecord]).SameContent (signedUpdate [hostRecord, mailRecord]) :=
  (signature_binds_iff_layout (by decide +kernel)).mpr (by decide +kernel)

/-- The UPDATE with the type of its record moved to the end of the name. -/
def movedUpdate : Transaction :=
  { signedUpdate [hostRecord] with
    domainName := utf8 "a.bdnsA"
    records := [⟨[], utf8 "1.2.3.4", 0⟩] }

/-- One signature is good for UPDATEs of two domains. -/
theorem one_signature_two_domains :
    (signedUpdate [hostRecord]).serializeForSigning = movedUpdate.serializeForSigning ∧
      (signedUpdate [hostRecord]).signature = movedUpdate.signature ∧
      verifySignature (.standIn fun _ => none) (utf8 "owner") (signedUpdate [hostRecord]) = true ∧
      verifySignature (.standIn fun _ => none) (utf8 "owner") movedUpdate = true ∧
      (signedUpdate [hostRecord]).domainName ≠ movedUpdate.domainName :=
  ⟨by decide +kernel, rfl, by decide +kernel, by decide +kernel, by decide +kernel⟩

/-! ## Blocks -/

namespace Block

/-- The lengths that the program produces: keys in PKIX form and digests. The index hash is empty
while there are no domains. The first block has no body, and text of the seed in `prevHash`. -/
structure Produced (b : Block) : Prop where
  slotLeader : b.slotLeader.length = 91
  stakeMapHash : b.stakeMapHash.length = 32
  unstakeQueueHash : b.unstakeQueueHash.length = 32
  first : b.index = 0 → b.indexHash = [] ∧ b.merkleRootHash = []
  later : b.index ≠ 0 → (b.indexHash.length = 0 ∨ b.indexHash.length = 32) ∧
    b.merkleRootHash.length = 32 ∧ b.prevHash.length = 32

/-- The fields that `ComputeHash` covers, but for the signature. -/
structure SameHeader (a b : Block) : Prop where
  index : a.index = b.index
  timestamp : a.timestamp = b.timestamp
  slotNumber : a.slotNumber = b.slotNumber
  slotLeader : a.slotLeader = b.slotLeader
  indexHash : a.indexHash = b.indexHash
  balanceLedgerHash : a.balanceLedgerHash = b.balanceLedgerHash
  commitStoreHash : a.commitStoreHash = b.commitStoreHash
  merkleRootHash : a.merkleRootHash = b.merkleRootHash
  stakeMapHash : a.stakeMapHash = b.stakeMapHash
  unstakeQueueHash : a.unstakeQueueHash = b.unstakeQueueHash
  prevHash : a.prevHash = b.prevHash

/-- Where blocks of one index agree in the length of the whole, they agree in the lengths of the
hashes. -/
theorem Produced.lengths_eq {a b : Block} (ha : a.Produced) (hb : b.Produced)
    (hIndex : a.index = b.index)
    (hLength : a.indexHash.length + a.merkleRootHash.length + a.prevHash.length =
      b.indexHash.length + b.merkleRootHash.length + b.prevHash.length) :
    a.indexHash.length = b.indexHash.length ∧ a.merkleRootHash.length = b.merkleRootHash.length := by
  by_cases hFirst : a.index = 0
  · obtain ⟨ha₁, ha₂⟩ := ha.first hFirst
    obtain ⟨hb₁, hb₂⟩ := hb.first (hIndex ▸ hFirst)
    simp [ha₁, ha₂, hb₁, hb₂]
  · obtain ⟨-, ha₂, ha₃⟩ := ha.later hFirst
    obtain ⟨-, hb₂, hb₃⟩ := hb.later (hIndex ▸ hFirst)
    omega

end Block

/-- For blocks as the program makes them, a signature binds every field of the header but the
hashes of the ledger and of the commit store, which it does not cover. -/
theorem block_signature_binds_iff {E : External} {a b : Block} (ha : a.Produced) (hb : b.Produced)
    (hInj : Set.InjOn E.sha256 {a.signingData, b.signingData})
    (h : a.serializeForSigning E = b.serializeForSigning E) :
    a.SameHeader b ↔
      a.balanceLedgerHash = b.balanceLedgerHash ∧ a.commitStoreHash = b.commitStoreHash := by
  refine ⟨fun hSame => ⟨hSame.balanceLedgerHash, hSame.commitStoreHash⟩, fun hHashes => ?_⟩
  have hData : a.signingData = b.signingData := hInj (by simp) (by simp) h
  have hTotal := congrArg List.length hData
  simp only [Block.signingData, List.length_append, length_intToByteArr, ha.slotLeader,
    hb.slotLeader, ha.stakeMapHash, hb.stakeMapHash, ha.unstakeQueueHash,
    hb.unstakeQueueHash] at hTotal
  simp only [Block.signingData, List.append_assoc] at hData
  obtain ⟨hIndex, hData⟩ := intToByteArr_append_inj hData
  obtain ⟨hIndexLength, hRootLength⟩ := ha.lengths_eq hb hIndex (by omega)
  obtain ⟨hTimestamp, hData⟩ := intToByteArr_append_inj hData
  obtain ⟨hSlot, hData⟩ := intToByteArr_append_inj hData
  obtain ⟨hLeader, hData⟩ := List.append_inj hData (ha.slotLeader.trans hb.slotLeader.symm)
  obtain ⟨hIndexHash, hData⟩ := List.append_inj hData hIndexLength
  obtain ⟨hRoot, hData⟩ := List.append_inj hData hRootLength
  obtain ⟨hStake, hData⟩ := List.append_inj hData (ha.stakeMapHash.trans hb.stakeMapHash.symm)
  obtain ⟨hQueue, hPrev⟩ := List.append_inj hData
    (ha.unstakeQueueHash.trans hb.unstakeQueueHash.symm)
  exact ⟨hIndex, hTimestamp, hSlot, hLeader, hIndexHash, hHashes.1, hHashes.2, hRoot, hStake,
    hQueue, hPrev⟩

/-- A block of the stand-in with a given hash of the ledger. -/
def sealedWith (balanceLedgerHash : Bytes) : Block :=
  let b : Block :=
    { index := 1, slotNumber := 1, slotLeader := List.replicate 91 7, transactions := []
      merkleRootHash := StandIn.digest [1], stakeMapHash := StandIn.digest []
      unstakeQueueHash := StandIn.digest [], prevHash := StandIn.digest [2], balanceLedgerHash }
  { b with
    signature := StandIn.sign b.slotLeader
      (StandIn.digest (b.serializeForSigning (.standIn fun _ => none))) }

theorem sealedWith_produced (balanceLedgerHash : Bytes) : (sealedWith balanceLedgerHash).Produced where
  slotLeader := rfl
  stakeMapHash := length_beBytes _ _
  unstakeQueueHash := length_beBytes _ _
  first h := absurd (show (1 : Int64) = 0 from h) (by decide)
  later _ := ⟨.inl rfl, length_beBytes _ _, length_beBytes _ _⟩

/-- The same header over another body. -/
def sealedOther : Block := { sealedWith (StandIn.digest [3]) with transactions := [StandIn.plainTx 1] }

theorem block_signature_binds_iff_sealed :
    (sealedWith (StandIn.digest [3])).SameHeader sealedOther := by
  have hProduced := sealedWith_produced (StandIn.digest [3])
  have hOther : sealedOther.Produced :=
    ⟨hProduced.slotLeader, hProduced.stakeMapHash, hProduced.unstakeQueueHash, hProduced.first,
      hProduced.later⟩
  have hInj : Set.InjOn (External.standIn fun _ => none).sha256
      {(sealedWith (StandIn.digest [3])).signingData, sealedOther.signingData} := by
    simp [Set.InjOn, sealedOther, Block.signingData]
  exact (block_signature_binds_iff hProduced hOther hInj rfl).mpr ⟨rfl, rfl⟩

/-- One signature is good for two hashes of the ledger. -/
theorem one_signature_two_ledgers :
    (sealedWith (StandIn.digest [3])).Produced ∧ (sealedWith (StandIn.digest [4])).Produced ∧
      (sealedWith (StandIn.digest [3])).serializeForSigning (.standIn fun _ => none) =
        (sealedWith (StandIn.digest [4])).serializeForSigning (.standIn fun _ => none) ∧
      (sealedWith (StandIn.digest [3])).signature = (sealedWith (StandIn.digest [4])).signature ∧
      (sealedWith (StandIn.digest [3])).verifyBlock (.standIn fun _ => none)
        (List.replicate 91 7) = true ∧
      (sealedWith (StandIn.digest [4])).verifyBlock (.standIn fun _ => none)
        (List.replicate 91 7) = true ∧
      (sealedWith (StandIn.digest [3])).balanceLedgerHash ≠
        (sealedWith (StandIn.digest [4])).balanceLedgerHash :=
  ⟨sealedWith_produced _, sealedWith_produced _, rfl, rfl, by decide +kernel, by decide +kernel,
    by decide +kernel⟩

end Bdns.Blockchain
