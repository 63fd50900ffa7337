import Bdns.Blockchain.Acceptance
import Bdns.Blockchain.DomainEffect
import Bdns.Network.Chain

/-!
# Who owns a domain

The owner of a domain is written in the metadata of its node in the index. While a block is
applied it is read through the journal of the overlay; a commit then installs the journal. The
overlay answers like the index that it is committed to, as long as every journal entry has a
node to be installed in (`SoundOverlay`), and each transaction changes the owner of at most one
domain, in one of three ways.
-/

namespace Bdns.Safety

open Lib Blockchain Network Index

/-! ## What a commit makes of the answers -/

section Commit

variable {E : External}

/-- Installing an entry again changes nothing. -/
theorem installEntry_installEntry (entry : OverlayEntry)
    (old : Option (Transaction × DomainMetadata)) :
    IndexOverlay.installEntry entry (IndexOverlay.installEntry entry old) =
      IndexOverlay.installEntry entry old := by
  unfold IndexOverlay.installEntry
  cases entry.addedTx <;> cases old <;> cases entry.ownerSet <;> cases entry.listPriceSet <;> rfl

/-- An overlay whose journal can be installed: over known names, each entry with a node. The
names are those of which the results speak. -/
structure SoundOverlay (E : External) (names : Set Bytes) (o : IndexOverlay) : Prop where
  keys : ∀ d ∈ o.journal, d ∈ names
  grounded : ∀ (d : Bytes) (entry : OverlayEntry), o.journal[d]? = some entry →
    entry.addedTx ≠ none ∨ (o.real.tree.search (hashDomain E d)).isSome
  /-- What is listed is owned. -/
  listed : ∀ d ∈ names, 0 < o.getListPrice E d → (o.getOwner E d).isSome

variable {names : Set Bytes} {o : IndexOverlay}

/-- The node of a domain after one commit, or after two. -/
theorem search_commit_twice
    {range range' : List (Bytes × OverlayEntry) → List (Bytes × OverlayEntry)}
    (hRange : ∀ xs, (range xs).Perm xs) (hRange' : ∀ xs, (range' xs).Perm xs)
    (target : IndexManager) {d : Bytes}
    (hApart : ∀ d' ∈ o.journal, hashDomain E d' = hashDomain E d → d' = d) :
    (o.commit E range' (o.commit E range target)).tree.search (hashDomain E d) =
      (o.commit E range target).tree.search (hashDomain E d) := by
  rw [IndexOverlay.search_commit o hRange' _ d hApart,
    IndexOverlay.search_commit o hRange _ d hApart]
  cases o.journal[d]? with
  | none => rfl
  | some entry => exact installEntry_installEntry entry _

/-- The committed index answers like the overlay. -/
theorem metadata_commit (h : SoundOverlay E names o)
    {range : List (Bytes × OverlayEntry) → List (Bytes × OverlayEntry)}
    (hRange : ∀ xs, (range xs).Perm xs) {d : Bytes}
    (hApart : ∀ d' ∈ o.journal, hashDomain E d' = hashDomain E d → d' = d) :
    (o.commit E range o.real).getOwner E d = o.getOwner E d ∧
      (o.commit E range o.real).getListPrice E d = o.getListPrice E d := by
  have hSearch := IndexOverlay.search_commit o hRange o.real d hApart
  rw [IndexManager.getOwner_eq, IndexManager.getListPrice_eq, IndexManager.metadata, hSearch,
    IndexOverlay.getOwner, IndexOverlay.getListPrice]
  cases hEntry : o.journal[d]? with
  | none =>
    dsimp only
    rw [IndexManager.getOwner_eq, IndexManager.getListPrice_eq, IndexManager.metadata]
    exact ⟨rfl, rfl⟩
  | some entry =>
    dsimp only
    rw [IndexManager.getOwner_eq, IndexManager.getListPrice_eq, IndexManager.metadata]
    have hGrounded := h.grounded d entry hEntry
    unfold IndexOverlay.installEntry
    cases hAdded : entry.addedTx with
    | some tx =>
      cases o.real.tree.search (hashDomain E d) <;> cases entry.ownerSet <;>
        cases entry.listPriceSet <;> exact ⟨rfl, rfl⟩
    | none =>
      cases hNode : o.real.tree.search (hashDomain E d) with
      | none =>
        rw [hAdded, hNode] at hGrounded
        simp at hGrounded
      | some node => cases entry.ownerSet <;> cases entry.listPriceSet <;> exact ⟨rfl, rfl⟩

/-- After the commit of `ValidateBlock` and that of `AddBlock` the index answers like the
overlay. -/
theorem metadata_installValidated {env : Env} (order : JournalOrder) (txs : List Transaction)
    {staged : Staged} {s : ChainState} (h : SoundOverlay env.E names staged.im)
    (hReal : staged.im.real = s.index) (hInj : Set.InjOn env.E.sha256 names) {d : Bytes}
    (hd : d ∈ names) :
    (installValidated env order txs staged s).index.getOwner env.E d =
        staged.im.getOwner env.E d ∧
      (installValidated env order txs staged s).index.getListPrice env.E d =
        staged.im.getListPrice env.E d := by
  have hApart : ∀ d' ∈ staged.im.journal, hashDomain env.E d' = hashDomain env.E d → d' = d :=
    fun d' hd' hEq => hInj (h.keys d' hd') hd (hexEncode_injective hEq)
  have hOnce := metadata_commit h (order.perm txs.length) hApart
  have hTwice := search_commit_twice (order.perm txs.length) (order.perm (txs.length + 1))
    staged.im.real hApart
  rw [IndexManager.getOwner_eq, IndexManager.getListPrice_eq, IndexManager.metadata] at hOnce ⊢
  rw [← hTwice, hReal] at hOnce
  exact hOnce

end Commit

/-! ## What the operations keep -/

namespace SoundOverlay

variable {E : External} {names : Set Bytes} {o : IndexOverlay} {d : Bytes}

/-- Before a block: an empty journal. -/
theorem newIndexOverlay {im : IndexManager}
    (hListed : ∀ d ∈ names, 0 < im.getListPrice E d → (im.getOwner E d).isSome) :
    SoundOverlay E names (.newIndexOverlay im) where
  keys d hd := by simp [IndexOverlay.newIndexOverlay] at hd
  grounded d entry hEntry := by simp [IndexOverlay.newIndexOverlay] at hEntry
  listed d hd hPrice := by
    simpa [IndexOverlay.newIndexOverlay, IndexOverlay.getOwner, IndexOverlay.getListPrice] using
      hListed d hd (by simpa [IndexOverlay.newIndexOverlay, IndexOverlay.getListPrice] using hPrice)

theorem markAsSpent (h : SoundOverlay E names o) (txID : Int64) :
    SoundOverlay E names (o.markAsSpent txID) :=
  ⟨h.keys, h.grounded, h.listed⟩

/-- The two parts that speak of the journal, after a write to one entry. -/
theorem journal_insert (h : SoundOverlay E names o) (hd : d ∈ names) (entry : OverlayEntry)
    (hEntry : entry.addedTx ≠ none ∨ (o.real.tree.search (hashDomain E d)).isSome) :
    (∀ d' ∈ o.journal.insert d entry, d' ∈ names) ∧
      ∀ (d' : Bytes) (entry' : OverlayEntry), (o.journal.insert d entry)[d']? = some entry' →
        entry'.addedTx ≠ none ∨ (o.real.tree.search (hashDomain E d')).isSome := by
  constructor
  · intro d' hd'
    rw [Std.ExtTreeMap.mem_insert, Std.LawfulEqCmp.compare_eq_iff_eq] at hd'
    rcases hd' with rfl | hd'
    · exact hd
    · exact h.keys d' hd'
  · intro d' entry' hGet
    rw [getElem?_insert_eq_ite] at hGet
    split at hGet
    · rename_i hKey
      subst hKey
      cases hGet
      exact hEntry
    · exact h.grounded d' entry' hGet

/-- The entry that a setter starts from has a node if the domain has a transaction. -/
theorem grounded_entryFor (h : SoundOverlay E names o) (hNode : (o.getDomain E d).isSome) :
    (o.entryFor E d).addedTx ≠ none ∨ (o.real.tree.search (hashDomain E d)).isSome := by
  unfold IndexOverlay.entryFor
  cases hEntry : o.journal[d]? with
  | some entry => exact h.grounded d entry hEntry
  | none =>
    right
    rw [IndexOverlay.getDomain, hEntry, IndexManager.getDomain_eq] at hNode
    simpa using hNode

theorem add (h : SoundOverlay E names o) (hd : d ∈ names) (tx : Transaction) (blockIndex : Int64)
    (txIndex : Nat) (slotsPerDay : Int64) :
    SoundOverlay E names (o.add d tx blockIndex txIndex slotsPerDay) := by
  obtain ⟨hKeys, hGrounded⟩ := h.journal_insert hd
    { (o.journal[d]?).getD {} with tx := some tx, added := true, blockIndex, txIndex }
    (.inl (by simp [OverlayEntry.addedTx]))
  refine ⟨hKeys, hGrounded, fun d' hd' hPrice => ?_⟩
  rw [IndexOverlay.getOwner_add]
  rw [IndexOverlay.getListPrice_add] at hPrice
  exact h.listed d' hd' hPrice

theorem setOwner (h : SoundOverlay E names o) (hd : d ∈ names)
    (hNode : (o.getDomain E d).isSome) (ownerKey : Option Bytes) :
    SoundOverlay E names (o.setOwner E d ownerKey) := by
  obtain ⟨hKeys, hGrounded⟩ := h.journal_insert hd
    { o.entryFor E d with ownerKey := ownerKey.getD [], ownerSet := true }
    (h.grounded_entryFor hNode)
  refine ⟨hKeys, hGrounded, fun d' hd' hPrice => ?_⟩
  rw [IndexOverlay.getOwner_setOwner]
  rw [IndexOverlay.getListPrice_setOwner] at hPrice
  split
  · rfl
  · exact h.listed d' hd' hPrice

theorem setListPrice (h : SoundOverlay E names o) (hd : d ∈ names)
    (hNode : (o.getDomain E d).isSome) {price : UInt64}
    (hOwned : 0 < price → (o.getOwner E d).isSome) :
    SoundOverlay E names (o.setListPrice E d price) := by
  obtain ⟨hKeys, hGrounded⟩ := h.journal_insert hd
    { o.entryFor E d with listPrice := price, listPriceSet := true }
    (h.grounded_entryFor hNode)
  refine ⟨hKeys, hGrounded, fun d' hd' hPrice => ?_⟩
  rw [IndexOverlay.getOwner_setListPrice]
  rw [IndexOverlay.getListPrice_setListPrice] at hPrice
  split at hPrice
  · rename_i hKey
    subst hKey
    exact hOwned hPrice
  · exact h.listed d' hd' hPrice

end SoundOverlay

/-! ## One transaction -/

section Step

variable {E : External} {names : Set Bytes} {pos : Position} {tx : Transaction}
  {st st' : DomainState} {err : Option Bytes}

theorem getDomain_of_inActivePhase (h : inActivePhase E pos tx st = .ok true) :
    ∃ existing, st.im.getDomain E tx.domainName = some existing ∧
      getDomainPhase pos.currentSlot existing.expirySlot pos.slotsPerDay = .active := by
  unfold inActivePhase at h
  split at h
  · exact absurd h (by simp)
  · rename_i existing hExisting
    exact ⟨existing, hExisting, by simpa using pure_eq_ok.mp h⟩

/-- REVOKE, UPDATE and RENEW end by writing the owner as it was. -/
def keepOwner (E : External) (d : Bytes) (owner : Option Bytes) (o : IndexOverlay) : IndexOverlay :=
  match owner with
  | some existingOwner => o.setOwner E d (some existingOwner)
  | none => o

theorem soundOverlay_keepOwner {o : IndexOverlay} {d : Bytes} (h : SoundOverlay E names o)
    (hd : d ∈ names) (hNode : (o.getDomain E d).isSome) (owner : Option Bytes) :
    SoundOverlay E names (keepOwner E d owner o) := by
  cases owner with
  | none => exact h
  | some existingOwner => exact h.setOwner hd hNode _

theorem getOwner_keepOwner {o : IndexOverlay} {d : Bytes} {owner : Option Bytes}
    (hOwner : o.getOwner E d = owner) (d' : Bytes) :
    (keepOwner E d owner o).getOwner E d' = o.getOwner E d' := by
  cases owner with
  | none => rfl
  | some existingOwner =>
    rw [keepOwner, IndexOverlay.getOwner_setOwner]
    split
    · rename_i hKey
      rw [← hKey, hOwner]
      rfl
    · rfl

theorem getListPrice_keepOwner (o : IndexOverlay) (d : Bytes) (owner : Option Bytes) (d' : Bytes) :
    (keepOwner E d owner o).getListPrice E d' = o.getListPrice E d' := by
  cases owner with
  | none => rfl
  | some existingOwner => exact IndexOverlay.getListPrice_setOwner ..

theorem real_keepOwner (o : IndexOverlay) (d : Bytes) (owner : Option Bytes) :
    (keepOwner E d owner o).real = o.real := by
  cases owner <;> rfl

/-- The overlay of UPDATE and RENEW before the owner is written. -/
def pricedDomain (E : External) (pos : Position) (tx : Transaction) (st : DomainState)
    (isRenew : Bool) : IndexOverlay :=
  let added := addDomain pos tx { st with im := st.im.markAsSpent tx.redeemsTxID }
    (storeTx E tx st isRenew)
  if 0 < st.im.getListPrice E tx.domainName then
    added.setListPrice E tx.domainName (st.im.getListPrice E tx.domainName)
  else added

theorem im_replaceDomain (isRenew : Bool) : (replaceDomain E pos tx st isRenew).im =
    keepOwner E tx.domainName (st.im.getOwner E tx.domainName)
      (pricedDomain E pos tx st isRenew) := rfl

/-- A redeemed transaction is marked first. -/
def spentDomain (tx : Transaction) (st : DomainState) : IndexOverlay :=
  if tx.redeemsTxID ≠ 0 then st.im.markAsSpent tx.redeemsTxID else st.im

theorem im_revokeDomain : (revokeDomain E pos tx st).im =
    keepOwner E tx.domainName (st.im.getOwner E tx.domainName)
      (addDomain pos tx { st with im := spentDomain tx st } tx) := rfl

theorem getOwner_pricedDomain (isRenew : Bool) (d : Bytes) :
    (pricedDomain E pos tx st isRenew).getOwner E d = st.im.getOwner E d := by
  unfold pricedDomain addDomain
  dsimp only
  split
  · rw [IndexOverlay.getOwner_setListPrice, IndexOverlay.getOwner_add,
      IndexOverlay.getOwner_markAsSpent]
  · rw [IndexOverlay.getOwner_add, IndexOverlay.getOwner_markAsSpent]

theorem getOwner_replaceDomain (isRenew : Bool) (d : Bytes) :
    (replaceDomain E pos tx st isRenew).im.getOwner E d = st.im.getOwner E d := by
  rw [im_replaceDomain, getOwner_keepOwner (getOwner_pricedDomain isRenew _),
    getOwner_pricedDomain]

theorem getOwner_spentDomain (d : Bytes) :
    (spentDomain tx st).getOwner E d = st.im.getOwner E d := by
  unfold spentDomain
  split <;> rfl

theorem getOwner_revokeDomain (d : Bytes) :
    (revokeDomain E pos tx st).im.getOwner E d = st.im.getOwner E d := by
  rw [im_revokeDomain, getOwner_keepOwner, addDomain, IndexOverlay.getOwner_add,
    getOwner_spentDomain]
  rw [addDomain, IndexOverlay.getOwner_add, getOwner_spentDomain]

theorem getListPrice_replaceDomain (isRenew : Bool) (d : Bytes) :
    (replaceDomain E pos tx st isRenew).im.getListPrice E d = st.im.getListPrice E d := by
  rw [im_replaceDomain, getListPrice_keepOwner]
  unfold pricedDomain addDomain
  dsimp only
  split
  · rw [IndexOverlay.getListPrice_setListPrice, IndexOverlay.getListPrice_add,
      IndexOverlay.getListPrice_markAsSpent]
    split
    · rename_i hd
      rw [hd]
    · rfl
  · rw [IndexOverlay.getListPrice_add, IndexOverlay.getListPrice_markAsSpent]

theorem getListPrice_revokeDomain (d : Bytes) :
    (revokeDomain E pos tx st).im.getListPrice E d = st.im.getListPrice E d := by
  rw [im_revokeDomain, getListPrice_keepOwner, addDomain, IndexOverlay.getListPrice_add]
  unfold spentDomain
  split <;> rfl

theorem soundOverlay_replaceDomain (h : SoundOverlay E names st.im)
    (hName : tx.domainName ∈ names) (isRenew : Bool) :
    SoundOverlay E names (replaceDomain E pos tx st isRenew).im ∧
      (replaceDomain E pos tx st isRenew).im.real = st.im.real := by
  rw [im_replaceDomain, real_keepOwner]
  have hAdded := (h.markAsSpent tx.redeemsTxID).add hName (storeTx E tx st isRenew)
    pos.currentSlot pos.txIndex pos.slotsPerDay
  have hNode : ((addDomain pos tx { st with im := st.im.markAsSpent tx.redeemsTxID }
      (storeTx E tx st isRenew)).getDomain E tx.domainName).isSome := by
    rw [addDomain, IndexOverlay.getDomain_add, if_pos rfl]
    rfl
  unfold pricedDomain
  dsimp only
  split
  · rename_i hPrice
    refine ⟨soundOverlay_keepOwner (hAdded.setListPrice hName hNode fun _ => ?_) hName ?_ _, rfl⟩
    · rw [IndexOverlay.getOwner_add, IndexOverlay.getOwner_markAsSpent]
      exact h.listed _ hName hPrice
    · rw [IndexOverlay.getDomain_setListPrice]
      exact hNode
  · exact ⟨soundOverlay_keepOwner hAdded hName hNode _, rfl⟩

theorem soundOverlay_revokeDomain (h : SoundOverlay E names st.im)
    (hName : tx.domainName ∈ names) :
    SoundOverlay E names (revokeDomain E pos tx st).im ∧
      (revokeDomain E pos tx st).im.real = st.im.real := by
  have hSpent : SoundOverlay E names (spentDomain tx st) ∧
      (spentDomain tx st).real = st.im.real := by
    unfold spentDomain
    split
    · exact ⟨h.markAsSpent _, rfl⟩
    · exact ⟨h, rfl⟩
  rw [im_revokeDomain, real_keepOwner]
  refine ⟨soundOverlay_keepOwner (hSpent.1.add hName _ _ _ _) hName ?_ _, hSpent.2⟩
  rw [IndexOverlay.getDomain_add, if_pos rfl]
  rfl

/-- BUY and TRANSFER write a new owner and clear the listing. -/
theorem soundOverlay_sold {o : IndexOverlay} {d : Bytes} (h : SoundOverlay E names o)
    (hd : d ∈ names) (hNode : (o.getDomain E d).isSome) (owner : Option Bytes) :
    SoundOverlay E names ((o.setOwner E d owner).setListPrice E d 0) := by
  refine (h.setOwner hd hNode _).setListPrice hd ?_ fun hPrice => absurd hPrice (by decide)
  rw [IndexOverlay.getDomain_setOwner]
  exact hNode

/-- REVEAL and REGISTER write a transaction and its owner. -/
theorem soundOverlay_owned (h : SoundOverlay E names st.im) (hName : tx.domainName ∈ names)
    (owner : Option Bytes) :
    SoundOverlay E names ((addDomain pos tx st tx).setOwner E tx.domainName owner) := by
  refine (h.add hName _ _ _ _).setOwner hName ?_ _
  rw [IndexOverlay.getDomain_add, if_pos rfl]
  rfl

/-- Every transaction keeps the overlay sound and over the same index. -/
theorem soundOverlay_of_effect (h : SoundOverlay E names st.im) (hName : tx.domainName ∈ names)
    (hEffect : DomainEffect E pos tx st st' err) :
    SoundOverlay E names st'.im ∧ st'.im.real = st.im.real := by
  cases hEffect with
  | failed | skipped | committed => exact ⟨h, rfl⟩
  | registered => exact ⟨soundOverlay_owned h hName _, rfl⟩
  | revealed => exact ⟨(soundOverlay_owned h hName _).markAsSpent _, rfl⟩
  | revoked => exact soundOverlay_revokeDomain h hName
  | updated | renewed => exact soundOverlay_replaceDomain h hName _
  | listed _ hActive hOwner =>
    obtain ⟨existing, hExisting, -⟩ := getDomain_of_inActivePhase hActive
    exact ⟨h.setListPrice hName (by simp [hExisting]) fun _ => by simp [hOwner], rfl⟩
  | delisted _ hActive =>
    obtain ⟨existing, hExisting, -⟩ := getDomain_of_inActivePhase hActive
    exact ⟨h.setListPrice hName (by simp [hExisting]) fun h0 => absurd h0 (by decide), rfl⟩
  | bought _ hActive | transferred _ hActive =>
    obtain ⟨existing, hExisting, -⟩ := getDomain_of_inActivePhase hActive
    exact ⟨soundOverlay_sold h hName (by simp [hExisting]) _, rfl⟩

/-- Coins go from one account to another, and no other account changes. -/
structure Moved (ledger ledger' : BalanceLedger) (payer payee : Bytes) (amount : UInt64) :
    Prop where
  covered : amount ≤ ledger.getBalance payer
  debited : ledger'.getBalance payer = ledger.getBalance payer - amount
  credited : ledger'.getBalance payee = ledger.getBalance payee + amount
  others : ∀ k, k ≠ payer → k ≠ payee → ledger'.getBalance k = ledger.getBalance k

theorem moved_of_debit {ledger paid : BalanceLedger} {payer payee : Bytes} {amount : UInt64}
    (hDebit : ledger.debit payer amount = .ok (.ok paid)) (hApart : payer ≠ payee) :
    Moved ledger (paid.credit payee amount) payer payee amount := by
  obtain ⟨hEnough, hSelf, hOthers, -, -⟩ := BalanceLedger.debit_ok hDebit
  refine ⟨hEnough, ?_, ?_, fun k hPayer hPayee => ?_⟩
  · rw [BalanceLedger.getBalance_credit, if_neg hApart.symm, hSelf]
  · rw [BalanceLedger.getBalance_credit, if_pos rfl, hOthers payee hApart]
  · rw [BalanceLedger.getBalance_credit, if_neg hPayee.symm, hOthers k hPayer.symm]

/-- How a transaction may leave the owner of the domain `d`. -/
inductive OwnerStep (E : External) (pos : Position) (tx : Transaction) (d : Bytes)
    (st st' : DomainState) : Prop
  | kept (same : st'.im.getOwner E d = st.im.getOwner E d)
  | revealed (hType : tx.type = .reveal) (hName : tx.domainName = d)
      (free : ∀ existing, st.im.getDomain E d = some existing →
        getDomainPhase pos.currentSlot existing.expirySlot pos.slotsPerDay = .purged)
      (owner : st'.im.getOwner E d = some tx.recipient)
  | transferred (hType : tx.type = .transfer) (hName : tx.domainName = d)
      (signed : verifySignature E tx.ownerKey tx = true)
      (before : st.im.getOwner E d = some tx.ownerKey)
      (owner : st'.im.getOwner E d = some tx.recipient)
  | bought (hType : tx.type = .buy) (hName : tx.domainName = d)
      (signed : verifySignature E tx.ownerKey tx = true)
      (active : ∃ existing, st.im.getDomain E d = some existing ∧
        getDomainPhase pos.currentSlot existing.expirySlot pos.slotsPerDay = .active)
      (listed : 0 < st.im.getListPrice E d) (seller : Bytes)
      (before : st.im.getOwner E d = some seller) (other : tx.ownerKey ≠ seller)
      (atMost : st.im.getListPrice E d ≤ tx.listPrice)
      (paid : Moved st.ledger st'.ledger (hexEncode tx.ownerKey) (hexEncode seller)
        (st.im.getListPrice E d))
      (cleared : st'.im.getListPrice E d = 0) (owner : st'.im.getOwner E d = some tx.ownerKey)

theorem phase_of_phaseOutside {phase : Phase} (h : phaseOutside E pos tx st (· == phase) = none)
    (existing : Transaction) (hGet : st.im.getDomain E tx.domainName = some existing) :
    getDomainPhase pos.currentSlot existing.expirySlot pos.slotsPerDay = phase := by
  unfold phaseOutside at h
  rw [hGet, Option.bind_some] at h
  simpa using h

/-- The effects read off for the owner of `d`; an effect on another domain keeps it. -/
theorem ownerStep_of_effect (h : SoundOverlay E names st.im) (hName : tx.domainName ∈ names)
    (hRegister : tx.type ≠ .register)
    (hSigned : tx.type ≠ .revoke → verifySignature E tx.ownerKey tx = true) (d : Bytes)
    (hEffect : DomainEffect E pos tx st st' err) : OwnerStep E pos tx d st st' := by
  by_cases hd : tx.domainName = d
  · subst hd
    cases hEffect with
    | failed | skipped | committed => exact .kept rfl
    | registered hType => exact absurd hType hRegister
    | revealed hType _ _ hFree =>
      refine .revealed hType rfl (phase_of_phaseOutside hFree) ?_
      rw [IndexOverlay.getOwner_markAsSpent, IndexOverlay.getOwner_setOwner, if_pos rfl]
      rfl
    | revoked => exact .kept (getOwner_revokeDomain _)
    | updated | renewed => exact .kept (getOwner_replaceDomain _ _)
    | listed | delisted => exact .kept (IndexOverlay.getOwner_setListPrice ..)
    | bought hType hActive hForSale hOther hPrice paid hPaid =>
      rw [IndexOverlay.isForSale_eq, decide_eq_true_eq] at hForSale
      obtain ⟨seller, hSeller⟩ := Option.isSome_iff_exists.mp (h.listed _ hName hForSale)
      rw [hSeller] at hOther
      refine .bought hType rfl (hSigned (by simp [hType])) (getDomain_of_inActivePhase hActive)
        hForSale seller hSeller hOther hPrice ?_ ?_ ?_
      · rw [hSeller]
        exact moved_of_debit hPaid fun hEq => hOther (hexEncode_injective hEq)
      · simp only [buyDomain, IndexOverlay.getListPrice_setListPrice, if_true]
      · simp only [buyDomain, IndexOverlay.getOwner_setListPrice, IndexOverlay.getOwner_setOwner,
          if_true, Option.getD_some]
    | transferred hType _ hOwner =>
      refine .transferred hType rfl (hSigned (by simp [hType])) hOwner ?_
      rw [IndexOverlay.getOwner_setListPrice, IndexOverlay.getOwner_setOwner, if_pos rfl]
      rfl
  · refine .kept ?_
    cases hEffect with
    | failed | skipped | committed => rfl
    | registered hType => exact absurd hType hRegister
    | revealed =>
      rw [IndexOverlay.getOwner_markAsSpent, IndexOverlay.getOwner_setOwner, if_neg hd]
      exact IndexOverlay.getOwner_add ..
    | revoked => exact getOwner_revokeDomain _
    | updated | renewed => exact getOwner_replaceDomain _ _
    | listed | delisted => exact IndexOverlay.getOwner_setListPrice ..
    | bought | transferred =>
      exact (IndexOverlay.getOwner_setListPrice ..).trans
        ((IndexOverlay.getOwner_setOwner ..).trans (if_neg hd))

end Step

/-! ## Whole chains -/

section Chains

variable {env : Env} {names : Set Bytes}

/-- An accepted block leaves a sound overlay over the index that it found. -/
theorem soundOverlay_of_validateBlock {order : JournalOrder} {s : ChainState} {b latest : Block}
    {slotLeader : Bytes} {staged : Staged}
    (hListed : ∀ d ∈ names, 0 < s.index.getListPrice env.E d → (s.index.getOwner env.E d).isSome)
    (hNames : ∀ tx ∈ b.transactions, tx.domainName ∈ names)
    (hAccepted : validateBlock env order s b latest slotLeader = .ok staged) :
    SoundOverlay env.E names staged.im ∧ staged.im.real = s.index := by
  obtain ⟨-, -, ⟨ledger, st, -, hDomain, -, hIm, -⟩, -⟩ := validateBlock_eq_ok hAccepted
  rw [hIm]
  refine domainPass_invariant
    (fun st => SoundOverlay env.E names st.im ∧ st.im.real = s.index) ?_
    ⟨.newIndexOverlay hListed, rfl⟩ hDomain
  intro tx hMem i st st' err hSound hApply
  obtain ⟨hSound', hReal⟩ := soundOverlay_of_effect hSound.1 (hNames tx hMem)
    (applyDomainMutations_eq_ok hApply)
  exact ⟨hSound', hReal.trans hSound.2⟩

/-- Along a chain, what is listed is owned. -/
theorem listed_owned_of_chain {blocks : List Block} {s : ChainState}
    (hInj : Set.InjOn env.E.sha256 names) (hChain : Chain env blocks s)
    (hNames : ∀ b ∈ blocks, ∀ tx ∈ b.transactions, tx.domainName ∈ names) :
    ∀ d ∈ names, 0 < s.index.getListPrice env.E d → (s.index.getOwner env.E d).isSome := by
  induction hChain with
  | genesis block =>
    intro d _ hPrice
    have hZero : (genesisState env).index.getListPrice env.E d = 0 := rfl
    exact absurd hPrice (by simp [hZero])
  | @add blocks s latest b order slotLeader staged _ _ accepted ih =>
    have hListed := ih fun b' hb' => hNames b' (List.mem_append_left _ hb')
    have hOverlay := soundOverlay_of_validateBlock hListed
      (hNames b (List.mem_append_right _ List.mem_cons_self)) accepted
    intro d hd hPrice
    obtain ⟨hOwner, hList⟩ :=
      metadata_installValidated order b.transactions hOverlay.1 hOverlay.2 hInj hd
    rw [hOwner]
    rw [hList] at hPrice
    exact hOverlay.1.listed d hd hPrice

/-- Along every chain of accepted blocks, the owner of a domain changes only by a REVEAL of a
free domain, a TRANSFER of its owner or a BUY of a listed domain. The next block starts with the
owner that the index holds, each of its transactions makes an `OwnerStep`, and the owner at its
end is what the index then holds; `names` are the names that are hashed. -/
theorem owner_changes_only_by_reveal_transfer_buy {blocks : List Block} {s : ChainState}
    {latest b : Block} {order : JournalOrder} {slotLeader : Bytes} {staged : Staged}
    (hInj : Set.InjOn env.E.sha256 names) (hChain : Chain env blocks s)
    (hTip : blocks.getLast? = some latest)
    (hAccepted : validateBlock env order s b latest slotLeader = .ok staged)
    (hNames : ∀ b' ∈ blocks ++ [b], ∀ tx ∈ b'.transactions, tx.domainName ∈ names)
    {d : Bytes} (hd : d ∈ names) :
    Chain env (blocks ++ [b]) (installValidated env order b.transactions staged s) ∧
    ∃ ledger final, ledgerPass b.transactions s.ledger = .ok ledger ∧
      (domainStart s b ledger).im.getOwner env.E d = s.index.getOwner env.E d ∧
      domainPass env order b.slotNumber b.index b.transactions (domainStart s b ledger) =
        .ok final ∧
      (installValidated env order b.transactions staged s).index.getOwner env.E d =
        final.im.getOwner env.E d ∧
      (installValidated env order b.transactions staged s).ledger = final.ledger ∧
      ∀ before tx after, b.transactions = before ++ tx :: after →
        ∃ st st' err,
          domainPass env order b.slotNumber b.index before (domainStart s b ledger) = .ok st ∧
          applyDomainMutations env.E
            (env.position order b.slotNumber b.index before.length) tx st = .ok (st', err) ∧
          domainPass env order b.slotNumber b.index (before ++ [tx])
            (domainStart s b ledger) = .ok st' ∧
          OwnerStep env.E (env.position order b.slotNumber b.index before.length) tx d st st' := by
  have hListed := listed_owned_of_chain hInj hChain
    fun b' hb' => hNames b' (List.mem_append_left _ hb')
  have hBlock := hNames b (List.mem_append_right _ List.mem_cons_self)
  have hOverlay := soundOverlay_of_validateBlock hListed hBlock hAccepted
  have hInstalled :=
    metadata_installValidated order b.transactions hOverlay.1 hOverlay.2 hInj hd
  obtain ⟨-, ⟨sh, hRun⟩, ⟨ledger, final, hPass, hDomain, hLedger, hIm, -⟩, -⟩ :=
    validateBlock_eq_ok hAccepted
  rw [hIm] at hInstalled
  refine ⟨.add hChain hTip hAccepted, ledger, final, hPass, rfl, hDomain, hInstalled.1, hLedger,
    ?_⟩
  intro before tx after hSplit
  have hMem : tx ∈ b.transactions := by rw [hSplit]; simp
  obtain ⟨sh₁, sh₂, hValid⟩ := foldlM_mem hRun hMem
  obtain ⟨st, st', err, hBefore, hApply, hAfter⟩ := domainPass_split hSplit hDomain
  -- the overlay is sound where the transaction finds it
  have hSound : SoundOverlay env.E names st.im := by
    refine domainPass_invariant (fun st => SoundOverlay env.E names st.im) ?_
      (.newIndexOverlay hListed) hBefore
    intro tx' hMem' i st₁ st₂ err' h₁ hApply'
    exact (soundOverlay_of_effect h₁ (hBlock tx' (by rw [hSplit]; simp [hMem']))
      (applyDomainMutations_eq_ok hApply')).1
  refine ⟨st, st', err, hBefore, hApply, hAfter, ?_⟩
  refine ownerStep_of_effect hSound (hBlock tx hMem)
    (Validation.type_ne_register_of_validateTx hValid) (fun hType => ?_) d
    (applyDomainMutations_eq_ok hApply)
  exact Validation.verifySignature_of_validateTx hValid
    fun hKey => hType (Validation.type_of_ownerless hValid hKey)

/-- The block that registers the domain of the sample chain: nobody owns it before, the registry
owns it afterwards. -/
theorem owner_changes_only_by_reveal_transfer_buy_registry :
    (StandIn.registryChain 1).1.index.getOwner StandIn.registryEnv.E (utf8 "a.bdns") = none ∧
    (StandIn.registryChain 2).1.index.getOwner StandIn.registryEnv.E (utf8 "a.bdns") =
      some (utf8 "registry") ∧
    ∃ st st' err,
      applyDomainMutations StandIn.registryEnv.E
        (StandIn.registryEnv.position (.ascending _ _) (StandIn.registryChain 2).2.slotNumber
          (StandIn.registryChain 2).2.index 0) (StandIn.revealTx 2 1 1 [1] 1000) st =
        .ok (st', err) ∧
      OwnerStep StandIn.registryEnv.E
        (StandIn.registryEnv.position (.ascending _ _) (StandIn.registryChain 2).2.slotNumber
          (StandIn.registryChain 2).2.index 0) (StandIn.revealTx 2 1 1 [1] 1000) (utf8 "a.bdns")
        st st' := by
  refine ⟨by decide +kernel, by decide +kernel, ?_⟩
  obtain ⟨staged, hStaged, -⟩ := StandIn.registryChain_succ (n := 1) (by decide)
  have hNames : ∀ b ∈ StandIn.registryBlocks 2, ∀ tx ∈ b.transactions,
      tx.domainName ∈ [[], utf8 "a.bdns"] := by
    decide +kernel
  have hInj : Set.InjOn StandIn.registryEnv.E.sha256 {d | d ∈ [[], utf8 "a.bdns"]} :=
    Blockchain.StandIn.injOn_of_forall [[], utf8 "a.bdns"] (fun _ h => h) (by decide +kernel)
  obtain ⟨-, ledger, final, -, -, -, -, -, hSteps⟩ :=
    owner_changes_only_by_reveal_transfer_buy hInj
      (StandIn.chain_registryBlocks (n := 1) (by decide)) (StandIn.getLast?_registryBlocks 1)
      hStaged (by rw [← StandIn.registryBlocks_succ]; exact hNames) (d := utf8 "a.bdns")
      (by simp)
  have hTxs : (StandIn.registryChain 2).2.transactions =
      [] ++ StandIn.revealTx 2 1 1 [1] 1000 :: [] := by
    decide +kernel
  obtain ⟨st, st', err, -, hApply, -, hStep⟩ := hSteps _ _ _ hTxs
  exact ⟨st, st', err, hApply, hStep⟩

end Chains

end Bdns.Safety
