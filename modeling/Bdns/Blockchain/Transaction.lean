import Bdns.Blockchain.Config

/-!
# Transactions

The transaction record of `transaction.go` and the bytes its signature covers. The type
code is a `uint8` on the wire, so a transaction may carry a code with no name: `other`.
-/

namespace Bdns.Blockchain

open Lib

inductive TransactionType
  | register
  | update
  | revoke
  | renew
  | list
  | buy
  | transfer
  | delist
  | fund
  | commit
  | reveal
  | stake
  | unstake
  | equivocationProof
  /-- A code past the last constant of the source. -/
  | other (code : UInt8) (hCode : 14 ≤ code)
  deriving DecidableEq

def TransactionType.toByte : TransactionType → UInt8
  | .register => 0
  | .update => 1
  | .revoke => 2
  | .renew => 3
  | .list => 4
  | .buy => 5
  | .transfer => 6
  | .delist => 7
  | .fund => 8
  | .commit => 9
  | .reveal => 10
  | .stake => 11
  | .unstake => 12
  | .equivocationProof => 13
  | .other code _ => code

theorem TransactionType.toByte_injective : Function.Injective TransactionType.toByte := by
  intro a b h
  cases a <;> cases b <;> first
    | rfl
    | exact absurd h (by decide)
    | -- a code past the last constant is no constant
      simp only [toByte] at h
      subst h
      first
        | rfl
        | rename_i hCode
          exact absurd hCode (by decide)

@[ext] structure Record where
  type : Bytes
  value : Bytes
  /-- Only meaningful for MX records. -/
  priority : Int64
  deriving DecidableEq

/-- The canonical order of records: type, then priority, then value. -/
def Record.le (a b : Record) : Bool :=
  ((compare a.type b.type).then
    ((compare a.priority b.priority).then (compare a.value b.value))).isLE

/-- `SortRecords`. Records that tie in the order are equal, so the instability of
`sort.Slice` cannot show. -/
def sortRecords (records : List Record) : List Record :=
  records.insertionSort fun a b => a.le b

@[ext] structure Transaction where
  tid : Int64
  type : TransactionType
  timestamp : Int64 := 0
  domainName : Bytes := []
  records : List Record := []
  cacheTTL : Int64 := 0
  expirySlot : Int64 := 0
  /-- The transaction redeemed by an UPDATE, REVOKE, RENEW or REVEAL; 0 for none. -/
  redeemsTxID : Int64 := 0
  ownerKey : Bytes := []
  fee : UInt64 := 0
  nonce : UInt64 := 0
  /-- The asking price of a LIST, the most a BUY pays, the amount of a FUND. -/
  listPrice : UInt64 := 0
  recipient : Bytes := []
  signature : Bytes := []
  commitHash : Bytes := []
  salt : Bytes := []
  stakeAmount : UInt64 := 0
  equivBlockA : Bytes := []
  equivBlockB : Bytes := []
  deriving DecidableEq

/-- A length-prefixed field that is left out when empty. -/
def optionalField (b : Bytes) : Bytes :=
  if 0 < b.length then intToByteArr (Int64.ofNat b.length) ++ b else []

/-- `Transaction.SerializeForSigning`: every field but the signature, the records in
canonical order, the later fields only where they are set. -/
def Transaction.serializeForSigning (tx : Transaction) : Bytes :=
  intToByteArr tx.tid ++ [tx.type.toByte] ++ intToByteArr tx.timestamp ++ tx.domainName ++
    (sortRecords tx.records).flatMap
      (fun r => r.type ++ r.value ++ intToByteArr r.priority) ++
    intToByteArr tx.cacheTTL ++ intToByteArr tx.expirySlot ++ intToByteArr tx.redeemsTxID ++
    tx.ownerKey ++ intToByteArr tx.fee.toInt64 ++ intToByteArr tx.nonce.toInt64 ++
    intToByteArr tx.listPrice.toInt64 ++ tx.recipient ++
    optionalField tx.commitHash ++ optionalField tx.salt ++
    (if 0 < tx.stakeAmount then intToByteArr tx.stakeAmount.toInt64 else []) ++
    optionalField tx.equivBlockA ++ optionalField tx.equivBlockB

/-- The preimage of a commit hash: domain name, salt and key, each behind its length. -/
def commitPreimage (domainName salt ownerKey : Bytes) : Bytes :=
  intToByteArr (Int64.ofNat domainName.length) ++ domainName ++
    intToByteArr (Int64.ofNat salt.length) ++ salt ++
    intToByteArr (Int64.ofNat ownerKey.length) ++ ownerKey

/-- Behind its length, as Go counts it, a string can be told from what follows. -/
theorem lengthField_append_inj {a b x y : Bytes} (ha : a.length < 2 ^ 63) (hb : b.length < 2 ^ 63)
    (h : intToByteArr (Int64.ofNat a.length) ++ (a ++ x) =
      intToByteArr (Int64.ofNat b.length) ++ (b ++ y)) : a = b ∧ x = y := by
  obtain ⟨hLength, hRest⟩ := List.append_inj h (by simp)
  have hSame : a.length = b.length := by
    have hInt := congrArg Int64.toInt (intToByteArr_injective hLength)
    rw [Int64.toInt_ofNat_of_lt ha, Int64.toInt_ofNat_of_lt hb] at hInt
    exact Int.ofNat.inj hInt
  exact List.append_inj hRest hSame

/-- The preimage determines what was committed to. -/
theorem commitPreimage_inj {d d' x x' k k' : Bytes} (hd : d.length < 2 ^ 63)
    (hd' : d'.length < 2 ^ 63) (hx : x.length < 2 ^ 63) (hx' : x'.length < 2 ^ 63)
    (hk : k.length < 2 ^ 63) (hk' : k'.length < 2 ^ 63)
    (h : commitPreimage d x k = commitPreimage d' x' k') : d = d' ∧ x = x' ∧ k = k' := by
  simp only [commitPreimage, List.append_assoc] at h
  obtain ⟨hDomain, hAfter⟩ := lengthField_append_inj hd hd' h
  obtain ⟨hSalt, hLast⟩ := lengthField_append_inj hx hx' hAfter
  have hKey : k = k' ∧ ([] : Bytes) = [] :=
    lengthField_append_inj hk hk' (by simpa using hLast)
  exact ⟨hDomain, hSalt, hKey.1⟩

end Bdns.Blockchain
