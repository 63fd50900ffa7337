import Bdns.Blockchain.Block
import Bdns.Index.Avl

/-!
# The domain index

`index_manager.go`, `bloom_filter.go`: the tree, the bloom filter in front of it, the lists of
domains by expiry and purge slot, the location of each domain's transaction, and the spent
transactions. The Go maps of the last four are only read by key, hence functions here.
-/

namespace Bdns.Index

open Lib Blockchain

/-- Where a domain's transaction lives in the chain. -/
structure TxLocation where
  blockIndex : Int64
  txIndex : Nat
  deriving DecidableEq

def hashDomain (E : External) (domain : Bytes) : Bytes := hexEncode (E.sha256 domain)

/-- An empty tree has no key that the filter would have to know. -/
theorem filtered_empty (key : Bytes) (h : (({} : AVLTree).search key).isSome) : false = true := by
  simp at h

@[ext] structure IndexManager where
  tree : AVLTree := {}
  /-- The strings that were added to the filter of valid domains. -/
  validFilter : Bytes → Bool := fun _ => false
  /-- Every key of the tree was added to the filter. -/
  filtered : ∀ key, (tree.search key).isSome → validFilter key = true := by
    exact Bdns.Index.filtered_empty
  expiryIndex : Int64 → List Transaction := fun _ => []
  purgeIndex : Int64 → List Transaction := fun _ => []
  txLocations : Bytes → Option TxLocation := fun _ => none
  spentTxs : Int64 → Bool := fun _ => false

/-- What the index hash says about a domain. -/
structure DomainRecord where
  domain : Bytes
  records : List Record
  expirySlot : Int64
  listPrice : UInt64
  ownerKey : Option Bytes
  deriving DecidableEq

/-- `GetAllRecords`: the tree in order. The name is that of the transaction, not the key. -/
def getAllRecords (t : AVLTree) : List DomainRecord :=
  t.root.inOrder.map fun e =>
    { domain := e.2.1.domainName, records := e.2.1.records, expirySlot := e.2.1.expirySlot
      listPrice := e.2.2.listPrice, ownerKey := e.2.2.ownerKey }

/-- The text of the records of a domain. -/
def recordsText (records : List Record) : Bytes :=
  utf8 "[" ++
    List.intercalate (utf8 "|") (records.map fun rec =>
      rec.type ++ utf8 ":" ++ rec.value ++ utf8 ":" ++ decimalInt rec.priority.toInt) ++ utf8 "]"

def DomainRecord.line (r : DomainRecord) : Bytes :=
  r.domain ++ utf8 ":" ++ decimalInt r.expirySlot.toInt ++ utf8 ":" ++ recordsText r.records ++
    utf8 ":" ++ decimal r.listPrice.toNat ++ utf8 ":" ++ hexEncode (r.ownerKey.getD []) ++
    utf8 "\n"

/-- The lines of all records, sorted by domain. -/
def indexText (records : List DomainRecord) : Bytes :=
  (records.insertionSort fun a b => (compare a.domain b.domain).isLE).flatMap DomainRecord.line

/-- The end of both `GetIndexHash` methods: nil for no records, otherwise a digest. -/
def hashRecords (E : External) (records : List DomainRecord) : Bytes :=
  if records.length = 0 then [] else E.sha256 (indexText records)

namespace IndexManager

variable (E : External)

def getDomain (im : IndexManager) (domain : Bytes) : Option Transaction :=
  if E.bloomTest im.validFilter (hashDomain E domain) then
    (im.tree.search (hashDomain E domain)).map Prod.fst
  else none

def getIndexHash (im : IndexManager) : Bytes := hashRecords E (getAllRecords im.tree)

def add (im : IndexManager) (domain : Bytes) (tx : Transaction) (blockIndex : Int64)
    (txIndex : Nat) (slotsPerDay : Int64) : IndexManager where
  tree := im.tree.add (hashDomain E domain) tx
  validFilter := Function.update im.validFilter (hashDomain E domain) true
  filtered := by
    intro key hSome
    rw [AVLTree.search_add] at hSome
    by_cases hKey : key = hashDomain E domain
    · rw [hKey, Function.update_self]
    · rw [if_neg fun h => hKey h.symm] at hSome
      rw [Function.update_of_ne hKey]
      exact im.filtered key hSome
  txLocations := Function.update im.txLocations (hashDomain E domain) (some ⟨blockIndex, txIndex⟩)
  expiryIndex :=
    if 0 < tx.expirySlot then
      Function.update im.expiryIndex tx.expirySlot (im.expiryIndex tx.expirySlot ++ [tx])
    else im.expiryIndex
  purgeIndex :=
    if 0 < tx.expirySlot then
      Function.update im.purgeIndex (computePurgeSlot tx.expirySlot slotsPerDay)
        (im.purgeIndex (computePurgeSlot tx.expirySlot slotsPerDay) ++ [tx])
    else im.purgeIndex
  spentTxs := im.spentTxs

def getTxLocation (im : IndexManager) (domain : Bytes) : Option TxLocation :=
  im.txLocations (hashDomain E domain)

def getPurgeableDomains (im : IndexManager) (currentSlot : Int64) : List Transaction :=
  im.purgeIndex currentSlot

def isForSale (im : IndexManager) (domain : Bytes) : Bool :=
  (im.tree.search (hashDomain E domain)).any fun node => 0 < node.2.listPrice

def getListPrice (im : IndexManager) (domain : Bytes) : UInt64 :=
  ((im.tree.search (hashDomain E domain)).map fun node => node.2.listPrice).getD 0

/-- A write to the metadata of a domain's node, if there is one. -/
def setMetadata (im : IndexManager) (domain : Bytes) (f : DomainMetadata → DomainMetadata) :
    IndexManager :=
  { im with
    tree := im.tree.setMetadata (hashDomain E domain) f
    filtered := fun key hSome => im.filtered key (by
      rwa [AVLTree.search_setMetadata, Option.isSome_map] at hSome) }

def setListPrice (im : IndexManager) (domain : Bytes) (price : UInt64) : IndexManager :=
  im.setMetadata E domain fun m => { m with listPrice := price }

def setOwner (im : IndexManager) (domain : Bytes) (ownerKey : Option Bytes) : IndexManager :=
  im.setMetadata E domain fun m => { m with ownerKey := ownerKey }

def getOwner (im : IndexManager) (domain : Bytes) : Option Bytes :=
  (im.tree.search (hashDomain E domain)).bind fun node => node.2.ownerKey

def getTxByID (im : IndexManager) (txID : Int64) : Option Transaction :=
  im.tree.findNodeByTxID txID

def markAsSpent (im : IndexManager) (txID : Int64) : IndexManager :=
  { im with spentTxs := Function.update im.spentTxs txID true }

def isSpent (im : IndexManager) (txID : Int64) : Bool := im.spentTxs txID

/-- The metadata of a domain's node, or that of a new node. -/
def metadata (im : IndexManager) (domain : Bytes) : DomainMetadata :=
  ((im.tree.search (hashDomain E domain)).map Prod.snd).getD {}

variable {E}

/-- Behind the filter, a lookup is a search. -/
theorem getDomain_eq (im : IndexManager) (domain : Bytes) :
    im.getDomain E domain = (im.tree.search (hashDomain E domain)).map Prod.fst := by
  unfold getDomain
  split
  · rfl
  · rename_i hTest
    cases hSearch : im.tree.search (hashDomain E domain) with
    | none => rfl
    | some node => exact absurd (E.bloomTest_of_added _ _ (im.filtered _ (by simp [hSearch]))) hTest

theorem getListPrice_eq (im : IndexManager) (domain : Bytes) :
    im.getListPrice E domain = (im.metadata E domain).listPrice := by
  unfold getListPrice metadata
  cases im.tree.search (hashDomain E domain) <;> rfl

/-- A domain is for sale at a positive price. -/
theorem isForSale_eq (im : IndexManager) (domain : Bytes) :
    im.isForSale E domain = decide (0 < im.getListPrice E domain) := by
  unfold isForSale getListPrice
  cases im.tree.search (hashDomain E domain) <;> simp

theorem getOwner_eq (im : IndexManager) (domain : Bytes) :
    im.getOwner E domain = (im.metadata E domain).ownerKey := by
  unfold getOwner metadata
  cases im.tree.search (hashDomain E domain) <;> rfl

end IndexManager

end Bdns.Index
