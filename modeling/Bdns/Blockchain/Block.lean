import Bdns.Blockchain.Transaction
import Bdns.Lib.Outcome

/-!
# Blocks and the code outside the repository

`External` collects what the blockchain calls but the repository does not contain: the
hash, the signature scheme, gob, the bloom filter. It is a parameter of the whole model,
with the documented behaviour that the proofs rely on as fields. Nothing in it says that
the hash has no collisions, which no function with 32-byte digests can satisfy; results
that need it ask it of the strings they hash.
-/

namespace Bdns.Blockchain

open Lib

structure Block where
  index : Int64
  timestamp : Int64 := 0
  slotNumber : Int64
  slotLeader : Bytes
  signature : Bytes := []
  indexHash : Bytes := []
  balanceLedgerHash : Bytes := []
  merkleRootHash : Bytes := []
  stakeData : Std.ExtTreeMap Bytes UInt64 compare := ∅
  transactions : List Transaction
  prevHash : Bytes
  hash : Bytes := []
  commitStoreHash : Bytes := []
  stakeMapHash : Bytes := []
  unstakeQueueHash : Bytes := []

/-- The part of a block that light nodes keep. -/
structure BlockHeader where
  index : Int64
  slotNumber : Int64
  hash : Bytes
  prevHash : Bytes
  merkleRoot : Bytes
  indexHash : Bytes
  deriving DecidableEq

def Block.header (b : Block) : BlockHeader :=
  { index := b.index, slotNumber := b.slotNumber, hash := b.hash, prevHash := b.prevHash,
    merkleRoot := b.merkleRootHash, indexHash := b.indexHash }

structure External where
  /-- `sha256.Sum256`. -/
  sha256 : Bytes → Bytes
  sha256_length : ∀ b, (sha256 b).length = 32
  PublicKey : Type
  /-- `x509.ParsePKIXPublicKey`, then the assertion that the key is an ECDSA key. -/
  parsePublicKey : Bytes → Option PublicKey
  /-- `ecdsa.Verify` of a digest against the two halves of a signature. -/
  ecdsaVerify : PublicKey → Bytes → Nat → Nat → Bool
  /-- The gob encoding of a transaction. -/
  gobTx : Transaction → Bytes
  /-- Gob decodes what it encoded. -/
  gobTx_injective : Function.Injective gobTx
  /-- The encoding opens with the definition of the type, which names all its fields. -/
  gobTx_long : ∀ tx, 64 < (gobTx tx).length
  /-- Gob decoding of a block; `none` where the decoder returns an error. -/
  ungobBlock : Bytes → Option Block
  /-- `TestString` of a bloom filter to which exactly the strings of a set were added. -/
  bloomTest : (Bytes → Bool) → Bytes → Bool
  /-- A bloom filter has no false negatives. -/
  bloomTest_of_added : ∀ added s, added s = true → bloomTest added s = true

attribute [simp] External.sha256_length

/-- `ecdsa.Verify` as `VerifySignature` and `VerifyBlock` call it: the key parses, the
signature has 64 bytes, and its halves verify the digest. -/
def External.verify (E : External) (publicKeyBytes digest signature : Bytes) : Bool :=
  match E.parsePublicKey publicKeyBytes with
  | none => false
  | some publicKey =>
    if signature.length ≠ 64 then false
    else E.ecdsaVerify publicKey digest (beNat (signature.take 32)) (beNat (signature.drop 32))

def verifySignature (E : External) (publicKeyBytes : Bytes) (tx : Transaction) : Bool :=
  E.verify publicKeyBytes (E.sha256 tx.serializeForSigning) tx.signature

/-- The header fields a block signature covers, before they are hashed. -/
def Block.signingData (b : Block) : Bytes :=
  intToByteArr b.index ++ intToByteArr b.timestamp ++ intToByteArr b.slotNumber ++
    b.slotLeader ++ b.indexHash ++ b.merkleRootHash ++ b.stakeMapHash ++ b.unstakeQueueHash ++
    b.prevHash

def Block.serializeForSigning (E : External) (b : Block) : Bytes := E.sha256 b.signingData

def Block.verifyBlock (E : External) (b : Block) (publicKeyBytes : Bytes) : Bool :=
  E.verify publicKeyBytes (E.sha256 (b.serializeForSigning E)) b.signature

/-- The header fields a block hash covers. -/
def Block.hashData (b : Block) : Bytes :=
  intToByteArr b.index ++ intToByteArr b.timestamp ++ intToByteArr b.slotNumber ++
    b.slotLeader ++ b.signature ++ b.indexHash ++ b.balanceLedgerHash ++ b.commitStoreHash ++
    b.merkleRootHash ++ b.stakeMapHash ++ b.unstakeQueueHash ++ b.prevHash

def Block.computeHash (E : External) (b : Block) : Bytes := E.sha256 b.hashData

/-- `DeserializeBlock`: a decoding error ends in `log.Panic`, so the result is never nil. -/
def deserializeBlock (E : External) (d : Bytes) : Go Block :=
  match E.ungobBlock d with
  | none => throw .logPanic
  | some b => pure b

end Bdns.Blockchain
