import Bdns.Index.IndexManager
import Bdns.Lib.FiniteMap

/-!
# The index overlay

`index_overlay.go`: a journal of changes over the real index, in which one block is validated
and applied. `Commit` flushes the journal to the real index.
-/

namespace Bdns.Index

open Lib Blockchain Std

structure OverlayEntry where
  tx : Option Transaction := none
  /-- Never nil once `ownerSet` is. -/
  ownerKey : Bytes := []
  listPrice : UInt64 := 0
  added : Bool := false
  ownerSet : Bool := false
  listPriceSet : Bool := false
  blockIndex : Int64 := 0
  txIndex : Nat := 0
  deriving DecidableEq

/-- The transaction of an entry with `added` set. -/
def OverlayEntry.addedTx (entry : OverlayEntry) : Option Transaction :=
  if entry.added then entry.tx else none

/-- The `DomainIndexer` interface as validation uses it: reads only. -/
structure DomainIndexer where
  getDomain : Bytes → Option Transaction
  getOwner : Bytes → Option Bytes
  getListPrice : Bytes → UInt64
  isForSale : Bytes → Bool
  getTxByID : Int64 → Option Transaction
  isSpent : Int64 → Bool

/-- The index without an overlay. -/
def IndexManager.indexer (E : External) (im : IndexManager) : DomainIndexer where
  getDomain := im.getDomain E
  getOwner := im.getOwner E
  getListPrice := im.getListPrice E
  isForSale := im.isForSale E
  getTxByID := im.getTxByID
  isSpent := im.isSpent

structure IndexOverlay where
  real : IndexManager
  journal : ExtTreeMap Bytes OverlayEntry compare := ∅
  pendingSpent : Int64 → Bool := fun _ => false
  slotsPerDay : Int64 := 0

namespace IndexOverlay

def newIndexOverlay (real : IndexManager) : IndexOverlay := { real }

variable (E : External)

/-! ## The code -/

def getDomain (o : IndexOverlay) (domain : Bytes) : Option Transaction :=
  match o.journal[domain]? with
  | some entry => entry.tx
  | none => o.real.getDomain E domain

def add (o : IndexOverlay) (domain : Bytes) (tx : Transaction) (blockIndex : Int64)
    (txIndex : Nat) (slotsPerDay : Int64) : IndexOverlay :=
  let entry := (o.journal[domain]?).getD {}
  { o with
    slotsPerDay
    journal := o.journal.insert domain
      { entry with tx := some tx, added := true, blockIndex, txIndex } }

/-- The journal entry that `SetOwner` and `SetListPrice` change: a new one starts with the
transaction of the real index. -/
def entryFor (o : IndexOverlay) (domain : Bytes) : OverlayEntry :=
  (o.journal[domain]?).getD { tx := o.real.getDomain E domain }

def setOwner (o : IndexOverlay) (domain : Bytes) (ownerKey : Option Bytes) : IndexOverlay :=
  { o with
    journal := o.journal.insert domain
      { o.entryFor E domain with ownerKey := ownerKey.getD [], ownerSet := true } }

def getOwner (o : IndexOverlay) (domain : Bytes) : Option Bytes :=
  match o.journal[domain]? with
  | some entry => if entry.ownerSet then some entry.ownerKey else o.real.getOwner E domain
  | none => o.real.getOwner E domain

def setListPrice (o : IndexOverlay) (domain : Bytes) (price : UInt64) : IndexOverlay :=
  { o with
    journal := o.journal.insert domain
      { o.entryFor E domain with listPrice := price, listPriceSet := true } }

def getListPrice (o : IndexOverlay) (domain : Bytes) : UInt64 :=
  match o.journal[domain]? with
  | some entry => if entry.listPriceSet then entry.listPrice else o.real.getListPrice E domain
  | none => o.real.getListPrice E domain

def isForSale (o : IndexOverlay) (domain : Bytes) : Bool :=
  match o.journal[domain]? with
  | some entry => if entry.listPriceSet then 0 < entry.listPrice else o.real.isForSale E domain
  | none => o.real.isForSale E domain

/-- `GetTxByID` loops over the journal, in any order. -/
def getTxByID (o : IndexOverlay)
    (range : List (Bytes × OverlayEntry) → List (Bytes × OverlayEntry)) (txID : Int64) :
    Option Transaction :=
  match (range o.journal.toList).findSome? fun e => e.2.tx.filter fun tx => tx.tid = txID with
  | some tx => some tx
  | none => o.real.getTxByID txID

def markAsSpent (o : IndexOverlay) (txID : Int64) : IndexOverlay :=
  { o with pendingSpent := Function.update o.pendingSpent txID true }

def isSpent (o : IndexOverlay) (txID : Int64) : Bool := o.pendingSpent txID || o.real.isSpent txID

/-- What one journal entry does to the merged records. -/
def mergeEntry (merged : ExtTreeMap Bytes DomainRecord compare) (e : Bytes × OverlayEntry) :
    ExtTreeMap Bytes DomainRecord compare :=
  let hashed := hashDomain E e.1
  let entry := e.2
  match entry.addedTx with
  | some tx =>
    merged.insert hashed
      { domain := hashed, records := tx.records, expirySlot := tx.expirySlot
        ownerKey := if entry.ownerSet then some entry.ownerKey else none
        listPrice := if entry.listPriceSet then entry.listPrice else 0 }
  | none =>
    match merged[hashed]? with
    | some existing =>
      merged.insert hashed
        { existing with
          ownerKey := if entry.ownerSet then some entry.ownerKey else existing.ownerKey
          listPrice := if entry.listPriceSet then entry.listPrice else existing.listPrice }
    | none => merged

/-- The records of the real index under their names, then the journal under hashed names. -/
def merged (o : IndexOverlay) : ExtTreeMap Bytes DomainRecord compare :=
  o.journal.toList.foldl (mergeEntry E)
    ((getAllRecords o.real.tree).foldl (fun m r => m.insert r.domain r) ∅)

def getIndexHash (o : IndexOverlay) : Bytes :=
  hashRecords E ((o.merged E).toList.map Prod.snd)

/-- The first thing `Commit` does for a journal entry. -/
def addEntry (slotsPerDay : Int64) (target : IndexManager) (e : Bytes × OverlayEntry) :
    IndexManager :=
  match e.2.addedTx with
  | some tx => target.add E e.1 tx e.2.blockIndex e.2.txIndex slotsPerDay
  | none => target

/-- What `Commit` does for one journal entry. -/
def commitEntry (slotsPerDay : Int64) (target : IndexManager) (e : Bytes × OverlayEntry) :
    IndexManager :=
  let added := addEntry E slotsPerDay target e
  let owned := if e.2.ownerSet then added.setOwner E e.1 (some e.2.ownerKey) else added
  if e.2.listPriceSet then owned.setListPrice E e.1 e.2.listPrice else owned

/-- `Commit`, which loops over the journal in any order. The real index is the live one at the
time of the call, hence an argument. -/
def commit (o : IndexOverlay)
    (range : List (Bytes × OverlayEntry) → List (Bytes × OverlayEntry)) (target : IndexManager) :
    IndexManager :=
  let flushed := (range o.journal.toList).foldl (commitEntry E o.slotsPerDay) target
  { flushed with spentTxs := fun txID => flushed.spentTxs txID || o.pendingSpent txID }

/-- The overlay as validation reads it. -/
def indexer (o : IndexOverlay)
    (range : List (Bytes × OverlayEntry) → List (Bytes × OverlayEntry)) : DomainIndexer where
  getDomain := o.getDomain E
  getOwner := o.getOwner E
  getListPrice := o.getListPrice E
  isForSale := o.isForSale E
  getTxByID := o.getTxByID range
  isSpent := o.isSpent

/-! ## What the operations change

Each operation changes one answer for one domain. -/

section Answers

variable {E} (o : IndexOverlay) (d d' : Bytes) (tx : Transaction) (blockIndex : Int64)
  (txIndex : Nat) (slotsPerDay : Int64) (ownerKey : Option Bytes) (price : UInt64) (txID txID' : Int64)

@[simp] theorem real_add : (o.add d tx blockIndex txIndex slotsPerDay).real = o.real := rfl

@[simp] theorem real_setOwner : (o.setOwner E d ownerKey).real = o.real := rfl

@[simp] theorem real_setListPrice : (o.setListPrice E d price).real = o.real := rfl

@[simp] theorem real_markAsSpent : (o.markAsSpent txID).real = o.real := rfl

theorem getDomain_add : (o.add d tx blockIndex txIndex slotsPerDay).getDomain E d' =
    if d = d' then some tx else o.getDomain E d' := by
  simp only [getDomain, add, getElem?_insert_eq_ite]
  by_cases hd : d = d' <;> simp [hd]

theorem getOwner_add :
    (o.add d tx blockIndex txIndex slotsPerDay).getOwner E d' = o.getOwner E d' := by
  simp only [getOwner, add, getElem?_insert_eq_ite]
  by_cases hd : d = d'
  · subst hd
    cases o.journal[d]? <;> simp
  · simp [hd]

theorem getListPrice_add :
    (o.add d tx blockIndex txIndex slotsPerDay).getListPrice E d' = o.getListPrice E d' := by
  simp only [getListPrice, add, getElem?_insert_eq_ite]
  by_cases hd : d = d'
  · subst hd
    cases o.journal[d]? <;> simp
  · simp [hd]

theorem getDomain_entryFor : (o.entryFor E d).tx = o.getDomain E d := by
  unfold entryFor getDomain
  cases o.journal[d]? <;> rfl

theorem getDomain_setOwner : (o.setOwner E d ownerKey).getDomain E d' = o.getDomain E d' := by
  simp only [getDomain, setOwner, getElem?_insert_eq_ite]
  by_cases hd : d = d'
  · subst hd
    simpa [getDomain] using o.getDomain_entryFor (E := E) d
  · simp [hd]

theorem getOwner_setOwner : (o.setOwner E d ownerKey).getOwner E d' =
    if d = d' then some (ownerKey.getD []) else o.getOwner E d' := by
  simp only [getOwner, setOwner, getElem?_insert_eq_ite]
  by_cases hd : d = d' <;> simp [hd]

theorem getListPrice_setOwner :
    (o.setOwner E d ownerKey).getListPrice E d' = o.getListPrice E d' := by
  simp only [getListPrice, setOwner, getElem?_insert_eq_ite, entryFor]
  by_cases hd : d = d'
  · subst hd
    cases o.journal[d]? <;> simp
  · simp [hd]

theorem getDomain_setListPrice :
    (o.setListPrice E d price).getDomain E d' = o.getDomain E d' := by
  simp only [getDomain, setListPrice, getElem?_insert_eq_ite]
  by_cases hd : d = d'
  · subst hd
    simpa [getDomain] using o.getDomain_entryFor (E := E) d
  · simp [hd]

theorem getOwner_setListPrice : (o.setListPrice E d price).getOwner E d' = o.getOwner E d' := by
  simp only [getOwner, setListPrice, getElem?_insert_eq_ite, entryFor]
  by_cases hd : d = d'
  · subst hd
    cases o.journal[d]? <;> simp
  · simp [hd]

theorem getListPrice_setListPrice : (o.setListPrice E d price).getListPrice E d' =
    if d = d' then price else o.getListPrice E d' := by
  simp only [getListPrice, setListPrice, getElem?_insert_eq_ite]
  by_cases hd : d = d' <;> simp [hd]

@[simp] theorem getDomain_markAsSpent : (o.markAsSpent txID).getDomain E d = o.getDomain E d := rfl

@[simp] theorem getOwner_markAsSpent : (o.markAsSpent txID).getOwner E d = o.getOwner E d := rfl

@[simp] theorem getListPrice_markAsSpent :
    (o.markAsSpent txID).getListPrice E d = o.getListPrice E d := rfl

@[simp] theorem isSpent_add :
    (o.add d tx blockIndex txIndex slotsPerDay).isSpent txID = o.isSpent txID := rfl

@[simp] theorem isSpent_setOwner : (o.setOwner E d ownerKey).isSpent txID = o.isSpent txID := rfl

@[simp] theorem isSpent_setListPrice :
    (o.setListPrice E d price).isSpent txID = o.isSpent txID := rfl

/-- A domain is for sale at a positive price. -/
theorem isForSale_eq : o.isForSale E d = decide (0 < o.getListPrice E d) := by
  unfold isForSale getListPrice
  cases o.journal[d]? with
  | none => exact o.real.isForSale_eq d
  | some entry =>
    dsimp only
    split
    · rfl
    · exact o.real.isForSale_eq d

end Answers

/-! ## What a commit installs -/

variable {E}

/-- What a journal entry makes of the node of its domain. -/
def installEntry (entry : OverlayEntry) (old : Option (Transaction × DomainMetadata)) :
    Option (Transaction × DomainMetadata) :=
  let node :=
    match entry.addedTx with
    | some tx => some (tx, (old.map Prod.snd).getD {})
    | none => old
  node.map fun (tx, m) =>
    (tx,
      { listPrice := if entry.listPriceSet then entry.listPrice else m.listPrice
        ownerKey := if entry.ownerSet then some entry.ownerKey else m.ownerKey })

theorem search_setMetadata (im : IndexManager) (d key : Bytes)
    (f : DomainMetadata → DomainMetadata) :
    (im.setMetadata E d f).tree.search key =
      (im.tree.search key).map fun p => if hashDomain E d = key then (p.1, f p.2) else p :=
  AVLTree.search_setMetadata ..

theorem search_commitEntry (slotsPerDay : Int64) (target : IndexManager)
    (e : Bytes × OverlayEntry) (key : Bytes) :
    (commitEntry E slotsPerDay target e).tree.search key =
      if hashDomain E e.1 = key then installEntry e.2 (target.tree.search key)
      else target.tree.search key := by
  obtain ⟨d, entry⟩ := e
  -- first the added transaction, then the two writes to its metadata
  have hAdded : (addEntry E slotsPerDay target (d, entry)).tree.search key =
      if hashDomain E d = key then
        (match entry.addedTx with
          | some tx => some (tx, ((target.tree.search key).map Prod.snd).getD {})
          | none => target.tree.search key)
      else target.tree.search key := by
    unfold addEntry
    dsimp only
    cases entry.addedTx with
    | none => simp
    | some tx =>
      simp only [IndexManager.add, AVLTree.search_add]
      split
      · rename_i hKey
        rw [hKey]
      · rfl
  unfold commitEntry installEntry
  dsimp only
  by_cases hKey : hashDomain E d = key
  · cases entry.ownerSet <;> cases entry.listPriceSet <;>
      simp [IndexManager.setOwner, IndexManager.setListPrice, search_setMetadata, hAdded, hKey,
        Function.comp_def]
  · cases entry.ownerSet <;> cases entry.listPriceSet <;>
      simp [IndexManager.setOwner, IndexManager.setListPrice, search_setMetadata, hAdded, hKey]

theorem search_foldl_of_ne {entries : List (Bytes × OverlayEntry)} {key : Bytes}
    (hNe : ∀ e ∈ entries, hashDomain E e.1 ≠ key) (slotsPerDay : Int64) (target : IndexManager) :
    (entries.foldl (commitEntry E slotsPerDay) target).tree.search key =
      target.tree.search key := by
  induction entries generalizing target with
  | nil => rfl
  | cons e entries ih =>
    rw [List.foldl_cons, ih fun e he => hNe e (List.mem_cons_of_mem _ he), search_commitEntry,
      if_neg (hNe e List.mem_cons_self)]

/-- One entry per key: the order of the others does not matter. -/
theorem search_foldl_of_mem {entries : List (Bytes × OverlayEntry)} {d : Bytes}
    {entry : OverlayEntry} (hMem : (d, entry) ∈ entries) (hNodup : (entries.map Prod.fst).Nodup)
    (hInj : ∀ e ∈ entries, hashDomain E e.1 = hashDomain E d → e.1 = d) (slotsPerDay : Int64)
    (target : IndexManager) :
    (entries.foldl (commitEntry E slotsPerDay) target).tree.search (hashDomain E d) =
      installEntry entry (target.tree.search (hashDomain E d)) := by
  induction entries generalizing target with
  | nil => simp at hMem
  | cons e entries ih =>
    obtain ⟨hNotMem, hNodup⟩ := List.nodup_cons.mp hNodup
    rw [List.foldl_cons]
    rcases List.mem_cons.mp hMem with rfl | hMem
    · have hNe : ∀ e ∈ entries, hashDomain E e.1 ≠ hashDomain E d := by
        intro e he hEq
        have hKey := hInj e (List.mem_cons_of_mem _ he) hEq
        exact hNotMem (List.mem_map.mpr ⟨e, he, hKey⟩)
      rw [search_foldl_of_ne hNe, search_commitEntry, if_pos rfl]
    · have hNe : hashDomain E e.1 ≠ hashDomain E d := by
        intro hEq
        have hKey := hInj e List.mem_cons_self hEq
        exact hNotMem (List.mem_map.mpr ⟨(d, entry), hMem, hKey.symm⟩)
      rw [ih hMem hNodup fun e he => hInj e (List.mem_cons_of_mem _ he), search_commitEntry,
        if_neg hNe]

/-- A commit installs the journal entry of a domain, whatever the order of the loop. -/
theorem search_commit (o : IndexOverlay)
    {range : List (Bytes × OverlayEntry) → List (Bytes × OverlayEntry)}
    (hRange : ∀ xs, (range xs).Perm xs) (target : IndexManager) (d : Bytes)
    (hInj : ∀ d' ∈ o.journal, hashDomain E d' = hashDomain E d → d' = d) :
    (o.commit E range target).tree.search (hashDomain E d) =
      match o.journal[d]? with
      | some entry => installEntry entry (target.tree.search (hashDomain E d))
      | none => target.tree.search (hashDomain E d) := by
  have hMem : ∀ e, e ∈ range o.journal.toList ↔ o.journal[e.1]? = some e.2 := by
    intro e
    rw [(hRange _).mem_iff]
    exact ExtTreeMap.mem_toList_iff_getElem?_eq_some
  have hKeys : ∀ e ∈ range o.journal.toList, hashDomain E e.1 = hashDomain E d → e.1 = d := by
    intro e he hEq
    exact hInj e.1 (ExtTreeMap.mem_iff_isSome_getElem?.mpr (by simp [(hMem e).mp he])) hEq
  unfold commit
  dsimp only
  cases hEntry : o.journal[d]? with
  | some entry =>
    refine search_foldl_of_mem ((hMem (d, entry)).mpr hEntry) ?_ hKeys _ _
    refine ((hRange _).map Prod.fst).nodup_iff.mpr ?_
    refine List.pairwise_map.mpr ((ExtTreeMap.distinct_keys_toList (t := o.journal)).imp ?_)
    rintro a b hab hEq
    exact hab (by rw [hEq]; exact ReflCmp.compare_self)
  | none =>
    refine search_foldl_of_ne (fun e he hEq => ?_) _ _
    have hSome := (hMem e).mp he
    rw [hKeys e he hEq, hEntry] at hSome
    exact Option.some_ne_none _ hSome.symm

/-- A key of no domain in the journal keeps its node. -/
theorem search_commit_of_ne (o : IndexOverlay)
    {range : List (Bytes × OverlayEntry) → List (Bytes × OverlayEntry)}
    (hRange : ∀ xs, (range xs).Perm xs) (target : IndexManager) {key : Bytes}
    (hNe : ∀ d ∈ o.journal, hashDomain E d ≠ key) :
    (o.commit E range target).tree.search key = target.tree.search key := by
  refine search_foldl_of_ne (fun e he => hNe e.1 ?_) _ _
  have hEntry := ExtTreeMap.mem_toList_iff_getElem?_eq_some.mp ((hRange _).mem_iff.mp he)
  exact ExtTreeMap.mem_iff_isSome_getElem?.mpr (by simp [hEntry])

/-- Commits of one overlay in two orders, into indexes with the same nodes, give the same nodes. -/
theorem search_commit_congr (o : IndexOverlay)
    {range range' : List (Bytes × OverlayEntry) → List (Bytes × OverlayEntry)}
    (hRange : ∀ xs, (range xs).Perm xs) (hRange' : ∀ xs, (range' xs).Perm xs)
    {target target' : IndexManager} (hSame : ∀ key, target.tree.search key = target'.tree.search key)
    (hInj : ∀ d ∈ o.journal, ∀ d' ∈ o.journal, hashDomain E d' = hashDomain E d → d' = d)
    (key : Bytes) :
    (o.commit E range target).tree.search key = (o.commit E range' target').tree.search key := by
  by_cases hKey : ∃ d ∈ o.journal, hashDomain E d = key
  · obtain ⟨d, hd, rfl⟩ := hKey
    rw [search_commit o hRange target d (hInj d hd), search_commit o hRange' target' d (hInj d hd),
      hSame]
  · have hNe : ∀ d ∈ o.journal, hashDomain E d ≠ key := fun d hd hEq => hKey ⟨d, hd, hEq⟩
    rw [search_commit_of_ne o hRange target hNe, search_commit_of_ne o hRange' target' hNe, hSame]

theorem spentTxs_commitEntry (slotsPerDay : Int64) (target : IndexManager)
    (e : Bytes × OverlayEntry) :
    (commitEntry E slotsPerDay target e).spentTxs = target.spentTxs := by
  unfold commitEntry addEntry
  cases e.2.addedTx <;> cases e.2.ownerSet <;> cases e.2.listPriceSet <;> rfl

/-- The spent transactions after a commit. -/
theorem isSpent_commit (o : IndexOverlay)
    (range : List (Bytes × OverlayEntry) → List (Bytes × OverlayEntry)) (target : IndexManager)
    (txID : Int64) :
    (o.commit E range target).isSpent txID = (target.isSpent txID || o.pendingSpent txID) := by
  have hFold : ∀ (entries : List (Bytes × OverlayEntry)) (im : IndexManager),
      (entries.foldl (commitEntry E o.slotsPerDay) im).spentTxs = im.spentTxs := by
    intro entries
    induction entries with
    | nil => exact fun _ => rfl
    | cons e entries ih => exact fun im => (ih _).trans (spentTxs_commitEntry _ im e)
  unfold commit IndexManager.isSpent
  dsimp only
  rw [hFold]

end IndexOverlay

end Bdns.Index
