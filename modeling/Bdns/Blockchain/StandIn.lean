import Bdns.Blockchain.Block

/-!
# A stand-in for the outside code

An instance of `External` that evaluates quickly. It shows that the laws asked of the
outside code are consistent, and concrete runs of the model use it. Its digest is a
polynomial value of the bytes, so it is no hash; its signatures name the signed digest and
the key, so everybody can make them.
-/

namespace Bdns.Blockchain

open Lib

namespace StandIn

def digest (b : Bytes) : Bytes :=
  beBytes 32 (b.foldl (fun acc x => (acc * 257 + x.toNat + 1) % (2 ^ 256 - 189)) 0)

/-- The signature of a digest under a key. -/
def sign (publicKeyBytes d : Bytes) : Bytes := d ++ digest publicKeyBytes

/-! ## An encoding of transactions -/

/-- A self-delimiting form of a byte string. -/
def frame : Bytes → Bytes
  | [] => [0]
  | x :: b => 1 :: x :: frame b

def encodeRecords : List Record → Bytes
  | [] => [0]
  | r :: records =>
    1 :: (frame r.type ++ (frame r.value ++ (intToByteArr r.priority ++ encodeRecords records)))

def encodeTx (tx : Transaction) : Bytes :=
  List.replicate 65 0 ++ (intToByteArr tx.tid ++ (tx.type.toByte :: (intToByteArr tx.timestamp ++
    (frame tx.domainName ++ (encodeRecords tx.records ++ (intToByteArr tx.cacheTTL ++
    (intToByteArr tx.expirySlot ++ (intToByteArr tx.redeemsTxID ++ (frame tx.ownerKey ++
    (intToByteArr tx.fee.toInt64 ++ (intToByteArr tx.nonce.toInt64 ++
    (intToByteArr tx.listPrice.toInt64 ++ (frame tx.recipient ++ (frame tx.signature ++
    (frame tx.commitHash ++ (frame tx.salt ++ (intToByteArr tx.stakeAmount.toInt64 ++
    (frame tx.equivBlockA ++ frame tx.equivBlockB))))))))))))))))))

theorem frame_append_inj {a b x y : Bytes} (h : frame a ++ x = frame b ++ y) : a = b ∧ x = y := by
  induction a generalizing b with
  | nil =>
    cases b with
    | nil => simpa [frame] using h
    | cons c b => simp [frame] at h
  | cons c a ih =>
    cases b with
    | nil => simp [frame] at h
    | cons d b =>
      simp only [frame, List.cons_append, List.cons.injEq, true_and] at h
      obtain ⟨rfl, rfl⟩ := ih h.2
      exact ⟨by rw [h.1], rfl⟩

theorem encodeRecords_append_inj {a b : List Record} {x y : Bytes}
    (h : encodeRecords a ++ x = encodeRecords b ++ y) : a = b ∧ x = y := by
  induction a generalizing b with
  | nil =>
    cases b with
    | nil => simpa [encodeRecords] using h
    | cons r b => simp [encodeRecords] at h
  | cons r a ih =>
    cases b with
    | nil => simp [encodeRecords] at h
    | cons r' b =>
      simp only [encodeRecords, List.cons_append, List.append_assoc, List.cons.injEq,
        true_and] at h
      obtain ⟨hType, h⟩ := frame_append_inj h
      obtain ⟨hValue, h⟩ := frame_append_inj h
      obtain ⟨hPriority, h⟩ := intToByteArr_append_inj h
      obtain ⟨rfl, rfl⟩ := ih h
      exact ⟨by rw [Record.ext hType hValue hPriority], rfl⟩

theorem encodeTx_injective : Function.Injective encodeTx := by
  intro tx tx' h
  unfold encodeTx at h
  replace h := List.append_cancel_left h
  obtain ⟨hTid, h⟩ := intToByteArr_append_inj h
  obtain ⟨hType, h⟩ := List.cons.inj h
  obtain ⟨hTimestamp, h⟩ := intToByteArr_append_inj h
  obtain ⟨hDomain, h⟩ := frame_append_inj h
  obtain ⟨hRecords, h⟩ := encodeRecords_append_inj h
  obtain ⟨hCacheTTL, h⟩ := intToByteArr_append_inj h
  obtain ⟨hExpiry, h⟩ := intToByteArr_append_inj h
  obtain ⟨hRedeems, h⟩ := intToByteArr_append_inj h
  obtain ⟨hOwner, h⟩ := frame_append_inj h
  obtain ⟨hFee, h⟩ := uint64_append_inj h
  obtain ⟨hNonce, h⟩ := uint64_append_inj h
  obtain ⟨hPrice, h⟩ := uint64_append_inj h
  obtain ⟨hRecipient, h⟩ := frame_append_inj h
  obtain ⟨hSignature, h⟩ := frame_append_inj h
  obtain ⟨hCommit, h⟩ := frame_append_inj h
  obtain ⟨hSalt, h⟩ := frame_append_inj h
  obtain ⟨hStake, h⟩ := uint64_append_inj h
  obtain ⟨hEquivA, h⟩ := frame_append_inj h
  obtain ⟨hEquivB, -⟩ := frame_append_inj (x := []) (y := []) (by simpa using h)
  exact Transaction.ext hTid (TransactionType.toByte_injective hType) hTimestamp hDomain hRecords
    hCacheTTL hExpiry hRedeems hOwner hFee hNonce hPrice hRecipient hSignature hCommit hSalt hStake
    hEquivA hEquivB

theorem length_encodeTx (tx : Transaction) : 64 < (encodeTx tx).length := by
  simp only [encodeTx, List.length_append, List.length_replicate]
  omega

/-- A transaction with nothing but a number. -/
def plainTx (tid : Int64) : Transaction := { tid := tid, type := .fund }

/-- A transaction with the signature of a key. -/
def signAs (publicKeyBytes : Bytes) (tx : Transaction) : Transaction :=
  { tx with signature := sign publicKeyBytes (digest tx.serializeForSigning) }

end StandIn

/-- The stand-in, with a table for the decoding of blocks. -/
def External.standIn (ungobBlock : Bytes → Option Block) : External where
  sha256 := StandIn.digest
  sha256_length := fun _ => length_beBytes _ _
  PublicKey := Bytes
  parsePublicKey := some
  ecdsaVerify := fun publicKey d r s => r = beNat d ∧ s = beNat (StandIn.digest publicKey)
  gobTx := StandIn.encodeTx
  gobTx_injective := StandIn.encodeTx_injective
  gobTx_long := StandIn.length_encodeTx
  ungobBlock := ungobBlock
  bloomTest := fun added s => added s
  bloomTest_of_added := fun _ _ h => h

/-- The digest of the stand-in on a concrete list of strings. -/
theorem StandIn.injOn_of_forall {S : Set Bytes} (strings : List Bytes)
    (hS : ∀ s ∈ S, s ∈ strings)
    (h : ∀ x ∈ strings, ∀ y ∈ strings, StandIn.digest x = StandIn.digest y → x = y) :
    Set.InjOn StandIn.digest S :=
  fun x hx y hy hEq => h x (hS x hx) y (hS y hy) hEq

end Bdns.Blockchain
