import Bdns.Blockchain.Block

/-!
# Building transactions

`transaction.go`: the constructors of transactions. What they draw or read from outside, a number,
the time and the signature, are arguments.
-/

namespace Bdns.Blockchain

open Lib

/-- What a constructor takes from outside: the number that `GenerateRandomTxID` draws, the time,
and `ecdsa.Sign` with the private key. -/
structure Draw where
  tid : Int64
  now : Int64
  sign : Bytes → Bytes

def signTransaction (E : External) (draw : Draw) (tx : Transaction) : Transaction :=
  { tx with signature := draw.sign (E.sha256 tx.serializeForSigning) }

/-- `NewTransaction`: only a REGISTER gets an expiry slot. -/
def newTransaction (E : External) (draw : Draw) (txType : TransactionType) (domainName : Bytes)
    (records : List Record) (cacheTTL currentSlot slotsPerDay redeemsTxID : Int64)
    (ownerKey : Bytes) (fee nonce : UInt64) : Transaction :=
  let tx : Transaction :=
    { tid := draw.tid, type := txType, timestamp := draw.now, domainName
      records := sortRecords records, cacheTTL, redeemsTxID, ownerKey, fee, nonce }
  signTransaction E draw <|
    if txType = .register then
      { tx with expirySlot := currentSlot + 365 * slotsPerDay, redeemsTxID := 0 }
    else tx

/-- `NewRenewTransaction`: one more year after the old expiry slot. -/
def newRenewTransaction (E : External) (draw : Draw) (domainName : Bytes) (records : List Record)
    (cacheTTL oldExpirySlot slotsPerDay redeemsTxID : Int64) (registryKey : Bytes)
    (fee nonce : UInt64) : Transaction :=
  signTransaction E draw
    { tid := draw.tid, type := .renew, timestamp := draw.now, domainName
      records := sortRecords records, cacheTTL
      expirySlot := oldExpirySlot + 365 * slotsPerDay, redeemsTxID
      ownerKey := registryKey, fee, nonce }

end Bdns.Blockchain
