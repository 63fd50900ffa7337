import Bdns.Safety.Agreement
import Bdns.Safety.Nonces

/-!
# Which transaction stands for a domain

Four kinds of transactions are written to the index: REVEAL, REVOKE, UPDATE and RENEW. The
index remembers them in several places: the node of the domain, the lists by purge slot, and the
numbers of the transactions that they redeem. Along a chain all of these come from transactions
that the chain has accepted (`IndexFrom`); while a block is applied, what is new is in the
journal of the overlay and comes from the block (`JournalFrom`).
-/

namespace Bdns.Safety

open Lib Blockchain Network Index

/-- The types of transactions that are written to the index. -/
def Writes (tx : Transaction) : Prop :=
  tx.type = .register ∨ tx.type = .reveal ∨ tx.type = .revoke ∨ tx.type = .update ∨
    tx.type = .renew

instance (tx : Transaction) : Decidable (Writes tx) := by
  unfold Writes
  infer_instance

/-- A transaction as the index stores it: a RENEW is stored with the records of the domain. -/
structure StoredAs (tx t : Transaction) : Prop where
  tid : t.tid = tx.tid
  type : t.type = tx.type
  domainName : t.domainName = tx.domainName
  expirySlot : t.expirySlot = tx.expirySlot

theorem storedAs_refl (tx : Transaction) : StoredAs tx tx := ⟨rfl, rfl, rfl, rfl⟩

theorem storedAs_storeTx (E : External) (tx : Transaction) (st : DomainState) (isRenew : Bool) :
    StoredAs tx (storeTx E tx st isRenew) := by
  unfold storeTx
  split
  · split <;> exact ⟨rfl, rfl, rfl, rfl⟩
  · exact storedAs_refl tx

/-! ## The journal of a block -/

/-- What a journal adds comes from a pool of transactions; its other entries repeat the index. -/
structure JournalFrom (E : External) (slotsPerDay : Int64) (pool : Transaction → Prop)
    (o : IndexOverlay) : Prop where
  added : ∀ (d : Bytes) (entry : OverlayEntry) (t : Transaction), o.journal[d]? = some entry →
    entry.addedTx = some t → ∃ tx, pool tx ∧ Writes tx ∧ tx.domainName = d ∧ StoredAs tx t
  unchanged : ∀ (d : Bytes) (entry : OverlayEntry), o.journal[d]? = some entry →
    entry.addedTx = none → entry.tx = o.real.getDomain E d
  slots : ∀ (d : Bytes) (entry : OverlayEntry), o.journal[d]? = some entry →
    entry.addedTx ≠ none → o.slotsPerDay = slotsPerDay
  spent : ∀ txID, o.pendingSpent txID = true →
    ∃ tx, pool tx ∧ Writes tx ∧ tx.redeemsTxID = txID

theorem tx_of_addedTx {entry : OverlayEntry} {t : Transaction} (h : entry.addedTx = some t) :
    entry.tx = some t := by
  unfold OverlayEntry.addedTx at h
  split at h
  · exact h
  · exact absurd h (by simp)

namespace JournalFrom

variable {E : External} {slotsPerDay : Int64} {pool : Transaction → Prop} {o : IndexOverlay}
  {d : Bytes}

theorem mono {pool' : Transaction → Prop} (h : JournalFrom E slotsPerDay pool o)
    (hPool : ∀ tx, pool tx → pool' tx) : JournalFrom E slotsPerDay pool' o where
  added d entry t hEntry hAdded := by
    obtain ⟨tx, hTx, hRest⟩ := h.added d entry t hEntry hAdded
    exact ⟨tx, hPool tx hTx, hRest⟩
  unchanged := h.unchanged
  slots := h.slots
  spent txID hSpent := by
    obtain ⟨tx, hTx, hRest⟩ := h.spent txID hSpent
    exact ⟨tx, hPool tx hTx, hRest⟩

theorem newIndexOverlay (im : IndexManager) :
    JournalFrom E slotsPerDay pool (.newIndexOverlay im) := by
  refine ⟨fun d entry t hEntry => ?_, fun d entry hEntry => ?_, fun d entry hEntry => ?_,
    fun txID hSpent => ?_⟩
  all_goals simp [IndexOverlay.newIndexOverlay] at *

theorem add (h : JournalFrom E slotsPerDay pool o) {tx t : Transaction} (hPool : pool tx)
    (hWrites : Writes tx) (hName : tx.domainName = d) (hStored : StoredAs tx t)
    (blockIndex : Int64) (txIndex : Nat) :
    JournalFrom E slotsPerDay pool (o.add d t blockIndex txIndex slotsPerDay) := by
  unfold IndexOverlay.add
  refine ⟨fun d' entry t' hEntry hAdded => ?_, fun d' entry hEntry hAdded => ?_,
    fun _ _ _ _ => rfl, h.spent⟩
  · rw [getElem?_insert_eq_ite] at hEntry
    split at hEntry
    · rename_i hd
      obtain rfl := Option.some.inj hEntry
      obtain rfl : t = t' := Option.some.inj hAdded
      exact ⟨tx, hPool, hWrites, hName.trans hd, hStored⟩
    · exact h.added d' entry t' hEntry hAdded
  · rw [getElem?_insert_eq_ite] at hEntry
    split at hEntry
    · obtain rfl := Option.some.inj hEntry
      exact absurd hAdded (by simp [OverlayEntry.addedTx])
    · exact h.unchanged d' entry hEntry hAdded

/-- A write to the metadata of an entry. -/
theorem write (h : JournalFrom E slotsPerDay pool o) {entry' : OverlayEntry}
    (hTx : entry'.tx = (o.entryFor E d).tx) (hFlag : entry'.added = (o.entryFor E d).added) :
    JournalFrom E slotsPerDay pool { o with journal := o.journal.insert d entry' } := by
  have hSame : entry'.addedTx = (o.entryFor E d).addedTx := by
    unfold OverlayEntry.addedTx
    rw [hTx, hFlag]
  -- an entry of the new journal has the transaction of an old one, or of the index
  have hOld : ∀ d' entry, (o.journal.insert d entry')[d']? = some entry →
      (∃ e, o.journal[d']? = some e ∧ entry.addedTx = e.addedTx ∧ entry.tx = e.tx) ∨
        entry.addedTx = none ∧ entry.tx = o.real.getDomain E d' := by
    intro d' entry hEntry
    rw [getElem?_insert_eq_ite] at hEntry
    split at hEntry
    · rename_i hd
      subst hd
      obtain rfl := Option.some.inj hEntry
      unfold IndexOverlay.entryFor at hSame hTx
      cases hGet : o.journal[d]? with
      | none =>
        rw [hGet] at hSame hTx
        exact .inr ⟨hSame, hTx⟩
      | some e =>
        rw [hGet] at hSame hTx
        exact .inl ⟨e, rfl, hSame, hTx⟩
    · exact .inl ⟨entry, hEntry, rfl, rfl⟩
  refine ⟨fun d' entry t hEntry hAdded => ?_, fun d' entry hEntry hAdded => ?_,
    fun d' entry hEntry hAdded => ?_, h.spent⟩
  · obtain ⟨e, hGet, hEq, -⟩ | ⟨hNone, -⟩ := hOld d' entry hEntry
    · exact h.added d' e t hGet (hEq ▸ hAdded)
    · exact absurd (hNone.symm.trans hAdded) (by simp)
  · obtain ⟨e, hGet, hEq, hTx'⟩ | ⟨-, hReal⟩ := hOld d' entry hEntry
    · exact hTx'.trans (h.unchanged d' e hGet (hEq ▸ hAdded))
    · exact hReal
  · obtain ⟨e, hGet, hEq, -⟩ | ⟨hNone, -⟩ := hOld d' entry hEntry
    · exact h.slots d' e hGet (hEq ▸ hAdded)
    · exact absurd hNone hAdded

theorem setOwner (h : JournalFrom E slotsPerDay pool o) (ownerKey : Option Bytes) :
    JournalFrom E slotsPerDay pool (o.setOwner E d ownerKey) :=
  h.write rfl rfl

theorem setListPrice (h : JournalFrom E slotsPerDay pool o) (price : UInt64) :
    JournalFrom E slotsPerDay pool (o.setListPrice E d price) :=
  h.write rfl rfl

theorem keepOwner (h : JournalFrom E slotsPerDay pool o) (owner : Option Bytes) :
    JournalFrom E slotsPerDay pool (Safety.keepOwner E d owner o) := by
  cases owner with
  | none => exact h
  | some existingOwner => exact h.setOwner _

theorem markAsSpent (h : JournalFrom E slotsPerDay pool o) {tx : Transaction} (hPool : pool tx)
    (hWrites : Writes tx) : JournalFrom E slotsPerDay pool (o.markAsSpent tx.redeemsTxID) := by
  refine ⟨h.added, h.unchanged, h.slots, fun txID hSpent => ?_⟩
  change Function.update o.pendingSpent tx.redeemsTxID true txID = true at hSpent
  rw [Function.update_apply] at hSpent
  split at hSpent
  · rename_i hEq
    exact ⟨tx, hPool, hWrites, hEq.symm⟩
  · exact h.spent txID hSpent

variable {pos : Position} {tx : Transaction} {st st' : DomainState} {err : Option Bytes}

theorem replaceDomain (h : JournalFrom E pos.slotsPerDay pool st.im) (hPool : pool tx)
    (hWrites : Writes tx) (isRenew : Bool) :
    JournalFrom E pos.slotsPerDay pool (Blockchain.replaceDomain E pos tx st isRenew).im := by
  have hAdded : JournalFrom E pos.slotsPerDay pool (addDomain pos tx
      { st with im := st.im.markAsSpent tx.redeemsTxID } (storeTx E tx st isRenew)) :=
    (h.markAsSpent hPool hWrites).add hPool hWrites rfl (storedAs_storeTx E tx st isRenew) _ _
  rw [im_replaceDomain]
  refine JournalFrom.keepOwner ?_ _
  unfold pricedDomain
  dsimp only
  split
  · exact hAdded.setListPrice _
  · exact hAdded

/-- A transaction of the pool adds itself. -/
theorem step (h : JournalFrom E pos.slotsPerDay pool st.im) (hPool : pool tx)
    (hEffect : DomainEffect E pos tx st st' err) :
    JournalFrom E pos.slotsPerDay pool st'.im := by
  cases hEffect with
  | failed | skipped | committed => exact h
  | registered hType =>
    exact (h.add hPool (.inl hType) rfl (storedAs_refl tx) _ _).setOwner _
  | revealed hType =>
    exact ((h.add hPool (.inr (.inl hType)) rfl (storedAs_refl tx) _ _).setOwner _).markAsSpent
      hPool (.inr (.inl hType))
  | revoked hType =>
    have hWrites : Writes tx := .inr (.inr (.inl hType))
    have hSpent : JournalFrom E pos.slotsPerDay pool (spentDomain tx st) := by
      unfold spentDomain
      split
      · exact h.markAsSpent hPool hWrites
      · exact h
    rw [im_revokeDomain]
    exact (hSpent.add hPool hWrites rfl (storedAs_refl tx) _ _).keepOwner _
  | updated hType => exact h.replaceDomain hPool (.inr (.inr (.inr (.inl hType)))) _
  | renewed hType => exact h.replaceDomain hPool (.inr (.inr (.inr (.inr hType)))) _
  | listed | delisted => exact h.setListPrice _
  | bought | transferred => exact (h.setOwner _).setListPrice _

end JournalFrom

/-- The index under the overlay stays. -/
theorem real_of_effect {E : External} {pos : Position} {tx : Transaction} {st st' : DomainState}
    {err : Option Bytes} (hEffect : DomainEffect E pos tx st st' err) :
    st'.im.real = st.im.real := by
  cases hEffect with
  | revoked =>
    rw [im_revokeDomain, real_keepOwner]
    unfold addDomain spentDomain
    dsimp only [IndexOverlay.real_add]
    split <;> rfl
  | updated | renewed =>
    rw [im_replaceDomain, real_keepOwner]
    unfold pricedDomain addDomain
    dsimp only
    split <;> rfl
  | _ => rfl

/-- The transactions of a block fill the journal. -/
theorem journalFrom_of_stages {env : Env} {order : JournalOrder} {s : ChainState} {b : Block}
    {staged : Staged} (h : Stages env order s b staged) :
    JournalFrom env.E env.slotsPerDay (· ∈ b.transactions) staged.im ∧
      staged.im.real = s.index := by
  obtain ⟨⟨ledger, st, -, hDomain, -, hIm, -⟩, -⟩ := h
  rw [hIm]
  refine domainPass_invariant
    (fun t => JournalFrom env.E env.slotsPerDay (· ∈ b.transactions) t.im ∧ t.im.real = s.index) ?_
    ⟨.newIndexOverlay _, rfl⟩ hDomain
  intro tx hMem i t t' err hJournal hApply
  have hEffect := applyDomainMutations_eq_ok hApply
  exact ⟨hJournal.1.step hMem hEffect, (real_of_effect hEffect).trans hJournal.2⟩

/-! ## What a commit brings into the index -/

section Commit

variable {E : External}

/-- What a journal entry adds to the list of a slot, where transactions are listed under
`slotOf`. -/
def listedAt (slotOf : Transaction → Int64) (slot : Int64) (e : Bytes × OverlayEntry) :
    List Transaction :=
  (e.2.addedTx.filter fun t => 0 < t.expirySlot ∧ slotOf t = slot).toList

theorem mem_listedAt {slotOf : Transaction → Int64} {slot : Int64} {e : Bytes × OverlayEntry}
    {t : Transaction} :
    t ∈ listedAt slotOf slot e ↔ e.2.addedTx = some t ∧ 0 < t.expirySlot ∧ slotOf t = slot := by
  simp [listedAt, Option.filter_eq_some_iff]

theorem lists_commitEntry (slotsPerDay : Int64) (target : IndexManager)
    (e : Bytes × OverlayEntry) (slot : Int64) :
    (IndexOverlay.commitEntry E slotsPerDay target e).expiryIndex slot =
        target.expiryIndex slot ++ listedAt Transaction.expirySlot slot e ∧
      (IndexOverlay.commitEntry E slotsPerDay target e).purgeIndex slot =
        target.purgeIndex slot ++
          listedAt (fun t => computePurgeSlot t.expirySlot slotsPerDay) slot e := by
  -- the writes to the metadata leave the lists alone
  have hSame : (IndexOverlay.commitEntry E slotsPerDay target e).expiryIndex =
        (IndexOverlay.addEntry E slotsPerDay target e).expiryIndex ∧
      (IndexOverlay.commitEntry E slotsPerDay target e).purgeIndex =
        (IndexOverlay.addEntry E slotsPerDay target e).purgeIndex := by
    unfold IndexOverlay.commitEntry
    cases e.2.ownerSet <;> cases e.2.listPriceSet <;> exact ⟨rfl, rfl⟩
  rw [hSame.1, hSame.2]
  unfold IndexOverlay.addEntry listedAt
  cases e.2.addedTx with
  | none => simp
  | some tx =>
    simp only [IndexManager.add]
    by_cases hPositive : 0 < tx.expirySlot
    · simp only [if_pos hPositive, Function.update_apply]
      constructor
      · by_cases hSlot : slot = tx.expirySlot
        · subst hSlot
          simp [Option.filter_some, hPositive]
        · simp [hSlot, Ne.symm hSlot]
      · by_cases hSlot : slot = computePurgeSlot tx.expirySlot slotsPerDay
        · subst hSlot
          simp [Option.filter_some, hPositive]
        · simp [hSlot, Ne.symm hSlot]
    · simp [hPositive]

/-- A commit appends to the lists what the journal adds. -/
theorem lists_commit (o : IndexOverlay)
    (range : List (Bytes × OverlayEntry) → List (Bytes × OverlayEntry)) (target : IndexManager)
    (slot : Int64) :
    (o.commit E range target).expiryIndex slot = target.expiryIndex slot ++
        (range o.journal.toList).flatMap (listedAt Transaction.expirySlot slot) ∧
      (o.commit E range target).purgeIndex slot = target.purgeIndex slot ++
        (range o.journal.toList).flatMap
          (listedAt (fun t => computePurgeSlot t.expirySlot o.slotsPerDay) slot) := by
  have hFold : ∀ (entries : List (Bytes × OverlayEntry)) (im : IndexManager),
      (entries.foldl (IndexOverlay.commitEntry E o.slotsPerDay) im).expiryIndex slot =
          im.expiryIndex slot ++ entries.flatMap (listedAt Transaction.expirySlot slot) ∧
        (entries.foldl (IndexOverlay.commitEntry E o.slotsPerDay) im).purgeIndex slot =
          im.purgeIndex slot ++ entries.flatMap
            (listedAt (fun t => computePurgeSlot t.expirySlot o.slotsPerDay) slot) := by
    intro entries
    induction entries with
    | nil => simp
    | cons e entries ih =>
      intro im
      obtain ⟨hExpiry, hPurge⟩ := lists_commitEntry (E := E) o.slotsPerDay im e slot
      obtain ⟨hExpiryRest, hPurgeRest⟩ := ih (IndexOverlay.commitEntry E o.slotsPerDay im e)
      rw [List.foldl_cons, hExpiryRest, hPurgeRest, hExpiry, hPurge]
      simp
  exact hFold _ _

/-- The lists by purge slot only grow: by what the journal adds. -/
theorem mem_purgeIndex_commit (o : IndexOverlay)
    {range : List (Bytes × OverlayEntry) → List (Bytes × OverlayEntry)}
    (hRange : ∀ xs, (range xs).Perm xs) (target : IndexManager) (slot : Int64) (t : Transaction) :
    t ∈ (o.commit E range target).purgeIndex slot ↔
      t ∈ target.purgeIndex slot ∨ ∃ (d : Bytes) (entry : OverlayEntry),
        o.journal[d]? = some entry ∧ entry.addedTx = some t ∧ 0 < t.expirySlot ∧
          computePurgeSlot t.expirySlot o.slotsPerDay = slot := by
  have hMem : ∀ e, e ∈ range o.journal.toList ↔ o.journal[e.1]? = some e.2 := by
    intro e
    rw [(hRange _).mem_iff]
    exact Std.ExtTreeMap.mem_toList_iff_getElem?_eq_some
  rw [(lists_commit o range target slot).2, List.mem_append, List.mem_flatMap]
  refine or_congr_right ?_
  constructor
  · rintro ⟨e, he, hListed⟩
    exact ⟨e.1, e.2, (hMem e).mp he, mem_listedAt.mp hListed⟩
  · rintro ⟨d, entry, hEntry, hListed⟩
    exact ⟨(d, entry), (hMem (d, entry)).mpr hEntry, mem_listedAt.mpr hListed⟩

/-- The location after a journal entry is that of a transaction it adds, or the old one. -/
theorem txLocations_commitEntry (slotsPerDay : Int64) (target : IndexManager)
    (e : Bytes × OverlayEntry) (key : Bytes) :
    (IndexOverlay.commitEntry E slotsPerDay target e).txLocations key =
      if hashDomain E e.1 = key ∧ e.2.addedTx.isSome then some ⟨e.2.blockIndex, e.2.txIndex⟩
      else target.txLocations key := by
  -- the writes to the metadata leave the locations alone
  have hAdd : (IndexOverlay.commitEntry E slotsPerDay target e).txLocations =
      (IndexOverlay.addEntry E slotsPerDay target e).txLocations := by
    unfold IndexOverlay.commitEntry
    dsimp only
    split <;> split <;> rfl
  rw [hAdd]
  unfold IndexOverlay.addEntry
  cases hAdded : e.2.addedTx with
  | none => simp
  | some t =>
    change Function.update target.txLocations (hashDomain E e.1) _ key = _
    rw [Function.update_apply]
    simp [eq_comm]

/-- After a commit, transaction and location of a node are those from before, or both are those
of a journal entry. -/
theorem node_commit_cases (o : IndexOverlay)
    {range : List (Bytes × OverlayEntry) → List (Bytes × OverlayEntry)}
    (hRange : ∀ xs, (range xs).Perm xs) (target : IndexManager) {key : Bytes}
    {node : Transaction × DomainMetadata}
    (h : (o.commit E range target).tree.search key = some node) :
    (∃ m, target.tree.search key = some (node.1, m) ∧
        (o.commit E range target).txLocations key = target.txLocations key) ∨
      ∃ (d : Bytes) (entry : OverlayEntry), o.journal[d]? = some entry ∧
        hashDomain E d = key ∧ entry.addedTx = some node.1 ∧
        (o.commit E range target).txLocations key = some ⟨entry.blockIndex, entry.txIndex⟩ := by
  have hMem : ∀ e ∈ range o.journal.toList, o.journal[e.1]? = some e.2 := fun e he =>
    Std.ExtTreeMap.mem_toList_iff_getElem?_eq_some.mp ((hRange _).mem_iff.mp he)
  have hFold : ∀ (entries : List (Bytes × OverlayEntry)) (im : IndexManager) (node),
      (∀ e ∈ entries, o.journal[e.1]? = some e.2) →
      let im' := entries.foldl (IndexOverlay.commitEntry E o.slotsPerDay) im
      im'.tree.search key = some node →
      (∃ m, im.tree.search key = some (node.1, m) ∧ im'.txLocations key = im.txLocations key) ∨
        ∃ (d : Bytes) (entry : OverlayEntry), o.journal[d]? = some entry ∧
          hashDomain E d = key ∧ entry.addedTx = some node.1 ∧
          im'.txLocations key = some ⟨entry.blockIndex, entry.txIndex⟩ := by
    intro entries
    induction entries with
    | nil => exact fun im node _ hSearch => .inl ⟨node.2, hSearch, rfl⟩
    | cons e entries ih =>
      intro im node hJournal im' hSearch
      obtain ⟨m, hFirst, hLoc⟩ | hLater :=
        ih (IndexOverlay.commitEntry E o.slotsPerDay im e) node
          (fun e' he' => hJournal e' (List.mem_cons_of_mem _ he')) hSearch
      · rw [txLocations_commitEntry] at hLoc
        rw [IndexOverlay.search_commitEntry] at hFirst
        split at hFirst
        · rename_i hKey
          unfold IndexOverlay.installEntry at hFirst
          cases hAdded : e.2.addedTx with
          | some t =>
            rw [hAdded] at hFirst hLoc
            obtain ⟨rfl, -⟩ := Prod.mk.inj (Option.some.inj hFirst)
            rw [if_pos ⟨hKey, rfl⟩] at hLoc
            exact .inr ⟨e.1, e.2, hJournal e List.mem_cons_self, hKey, hAdded, hLoc⟩
          | none =>
            rw [hAdded] at hFirst hLoc
            rw [if_neg (by simp)] at hLoc
            obtain ⟨⟨t, m'⟩, hOld, hEq⟩ := Option.map_eq_some_iff.mp hFirst
            obtain ⟨rfl, -⟩ := Prod.mk.inj hEq
            exact .inl ⟨m', hOld, hLoc⟩
        · rename_i hKey
          rw [if_neg fun hBoth => hKey hBoth.1] at hLoc
          exact .inl ⟨m, hFirst, hLoc⟩
      · exact .inr hLater
  exact hFold _ _ node hMem h

end Commit

/-! ## Along a chain -/

/-- All that the index remembers comes from a pool of transactions, and the transaction that
stands for a domain is in the list of its purge slot. -/
structure IndexFrom (env : Env) (pool : Transaction → Prop) (im : IndexManager) : Prop where
  nodes : ∀ key node, im.tree.search key = some node →
    ∃ tx, pool tx ∧ Writes tx ∧ hashDomain env.E tx.domainName = key ∧ StoredAs tx node.1
  listed : ∀ key node, im.tree.search key = some node → 0 < node.1.expirySlot →
    node.1 ∈ im.purgeIndex (computePurgeSlot node.1.expirySlot env.slotsPerDay)
  purge : ∀ slot t, t ∈ im.purgeIndex slot →
    0 < t.expirySlot ∧ ∃ tx, pool tx ∧ Writes tx ∧ StoredAs tx t
  spent : ∀ txID, im.isSpent txID = true → ∃ tx, pool tx ∧ Writes tx ∧ tx.redeemsTxID = txID

namespace IndexFrom

variable {env : Env} {pool : Transaction → Prop} {im : IndexManager}

theorem mono {pool' : Transaction → Prop} (h : IndexFrom env pool im)
    (hPool : ∀ tx, pool tx → pool' tx) : IndexFrom env pool' im where
  nodes key node hSearch := by
    obtain ⟨tx, hTx, hRest⟩ := h.nodes key node hSearch
    exact ⟨tx, hPool tx hTx, hRest⟩
  listed := h.listed
  purge slot t hMem := by
    obtain ⟨hPositive, tx, hTx, hRest⟩ := h.purge slot t hMem
    exact ⟨hPositive, tx, hPool tx hTx, hRest⟩
  spent txID hSpent := by
    obtain ⟨tx, hTx, hRest⟩ := h.spent txID hSpent
    exact ⟨tx, hPool tx hTx, hRest⟩

theorem empty : IndexFrom env pool {} where
  nodes key node hSearch := by
    rw [AVLTree.search_empty] at hSearch
    exact absurd hSearch (by simp)
  listed key node hSearch := by
    rw [AVLTree.search_empty] at hSearch
    exact absurd hSearch (by simp)
  purge slot t hMem := absurd hMem List.not_mem_nil
  spent txID hSpent := absurd hSpent (by simp [IndexManager.isSpent])

theorem commit (h : IndexFrom env pool im) {o : IndexOverlay}
    (hJournal : JournalFrom env.E env.slotsPerDay pool o)
    {range : List (Bytes × OverlayEntry) → List (Bytes × OverlayEntry)}
    (hRange : ∀ xs, (range xs).Perm xs) : IndexFrom env pool (o.commit env.E range im) where
  nodes key node hSearch := by
    obtain ⟨m, hOld, -⟩ | ⟨d, entry, hEntry, hKey, hAdded, -⟩ :=
      node_commit_cases o hRange im hSearch
    · exact h.nodes key (node.1, m) hOld
    · obtain ⟨tx, hTx, hWrites, hName, hStored⟩ := hJournal.added d entry _ hEntry hAdded
      exact ⟨tx, hTx, hWrites, hName ▸ hKey, hStored⟩
  listed key node hSearch hPositive := by
    rw [mem_purgeIndex_commit o hRange]
    obtain ⟨m, hOld, -⟩ | ⟨d, entry, hEntry, hKey, hAdded, -⟩ :=
      node_commit_cases o hRange im hSearch
    · exact .inl (h.listed key (node.1, m) hOld hPositive)
    · have hSlots := hJournal.slots d entry hEntry (by simp [hAdded])
      exact .inr ⟨d, entry, hEntry, hAdded, hPositive, by rw [hSlots]⟩
  purge slot t hMem := by
    obtain hOld | ⟨d, entry, hEntry, hAdded, hPositive, -⟩ :=
      (mem_purgeIndex_commit o hRange im slot t).mp hMem
    · exact h.purge slot t hOld
    · obtain ⟨tx, hTx, hWrites, -, hStored⟩ := hJournal.added d entry t hEntry hAdded
      exact ⟨hPositive, tx, hTx, hWrites, hStored⟩
  spent txID hSpent := by
    rw [IndexOverlay.isSpent_commit] at hSpent
    rcases Bool.or_eq_true_iff.mp hSpent with hOld | hNew
    · exact h.spent txID hOld
    · exact hJournal.spent txID hNew

end IndexFrom

/-- The index after an accepted block, which is flushed twice. -/
theorem indexFrom_installValidated {env : Env} {order : JournalOrder} {s : ChainState} {b : Block}
    {staged : Staged} {pool : Transaction → Prop} (h : IndexFrom env pool s.index)
    (hStages : Stages env order s b staged) (hPool : ∀ tx ∈ b.transactions, pool tx) :
    IndexFrom env pool (installValidated env order b.transactions staged s).index := by
  have hJournal := (journalFrom_of_stages hStages).1.mono hPool
  exact (h.commit hJournal (order.perm _)).commit hJournal (order.perm _)

theorem indexFrom_of_chain {env : Env} {blocks : List Block} {s : ChainState}
    (hChain : Chain env blocks s) : IndexFrom env (· ∈ acceptedTxs blocks) s.index := by
  induction hChain with
  | genesis block => exact .empty
  | @add blocks s latest b order slotLeader staged chain tip accepted ih =>
    have hBlocks : blocks ≠ [] := by
      rintro rfl
      simp at tip
    rw [acceptedTxs_concat hBlocks]
    obtain ⟨-, -, hStages⟩ := validateBlock_eq_ok accepted
    exact indexFrom_installValidated (ih.mono fun tx hTx => List.mem_append_left _ hTx) hStages
      fun tx hTx => List.mem_append_right _ hTx

/-! ## While a block is applied -/

/-- An overlay whose index and whose journal come from a pool of transactions. -/
structure Traced (env : Env) (names : Set Bytes) (pool : Transaction → Prop)
    (o : IndexOverlay) : Prop where
  index : IndexFrom env pool o.real
  journal : JournalFrom env.E env.slotsPerDay pool o
  keys : KeysIn names o

namespace Traced

variable {env : Env} {names : Set Bytes} {pool : Transaction → Prop} {o : IndexOverlay}

theorem newIndexOverlay {im : IndexManager} (h : IndexFrom env pool im) :
    Traced env names pool (.newIndexOverlay im) where
  index := h
  journal := .newIndexOverlay im
  keys := keysIn_newIndexOverlay names im

theorem step {pos : Position} {tx : Transaction} {st st' : DomainState} {err : Option Bytes}
    (h : Traced env names pool st.im) (hSlots : pos.slotsPerDay = env.slotsPerDay)
    (hPool : pool tx) (hName : tx.domainName ∈ names)
    (hEffect : DomainEffect env.E pos tx st st' err) : Traced env names pool st'.im where
  index := real_of_effect hEffect ▸ h.index
  journal := by
    have hJournal := h.journal
    rw [← hSlots] at hJournal ⊢
    exact hJournal.step hPool hEffect
  keys := h.keys.step hName hEffect

/-- The transaction in the journal under a name comes from the pool. -/
theorem pool_of_journal (h : Traced env names pool o) {d : Bytes} {entry : OverlayEntry}
    {t : Transaction} (hEntry : o.journal[d]? = some entry) (ht : entry.tx = some t) :
    ∃ tx, pool tx ∧ Writes tx ∧ hashDomain env.E tx.domainName = hashDomain env.E d ∧
      StoredAs tx t := by
  cases hAdded : entry.addedTx with
  | some t' =>
    obtain rfl : t = t' := Option.some.inj (ht.symm.trans (tx_of_addedTx hAdded))
    obtain ⟨tx, hTx, hWrites, rfl, hStored⟩ := h.journal.added d entry t hEntry hAdded
    exact ⟨tx, hTx, hWrites, rfl, hStored⟩
  | none =>
    have hReal := (h.journal.unchanged d entry hEntry hAdded).symm.trans ht
    rw [IndexManager.getDomain_eq] at hReal
    obtain ⟨node, hSearch, rfl⟩ := Option.map_eq_some_iff.mp hReal
    exact h.index.nodes _ node hSearch

theorem pool_of_getDomain (h : Traced env names pool o) {d : Bytes} {t : Transaction}
    (ht : o.getDomain env.E d = some t) :
    ∃ tx, pool tx ∧ Writes tx ∧ hashDomain env.E tx.domainName = hashDomain env.E d ∧
      StoredAs tx t := by
  unfold IndexOverlay.getDomain at ht
  split at ht
  · rename_i entry hEntry
    exact h.pool_of_journal hEntry ht
  · rw [IndexManager.getDomain_eq] at ht
    obtain ⟨node, hSearch, rfl⟩ := Option.map_eq_some_iff.mp ht
    exact h.index.nodes _ node hSearch

/-- A transaction is stored under its own name. -/
theorem domainName_of_getDomain (h : Traced env names pool o)
    (hNames : ∀ tx, pool tx → tx.domainName ∈ names) (hInj : Set.InjOn env.E.sha256 names)
    {d : Bytes} (hd : d ∈ names) {t : Transaction} (ht : o.getDomain env.E d = some t) :
    t.domainName = d := by
  obtain ⟨tx, hTx, -, hHash, hStored⟩ := h.pool_of_getDomain ht
  exact hStored.domainName.trans (hInj (hNames tx hTx) hd (hexEncode_injective hHash))

/-- What `GetTxByID` finds has the number, comes from the pool, and stands for its domain in the
overlay or in the index under it. -/
theorem of_getTxByID (h : Traced env names pool o)
    (hNames : ∀ tx, pool tx → tx.domainName ∈ names) (hInj : Set.InjOn env.E.sha256 names)
    {range : List (Bytes × OverlayEntry) → List (Bytes × OverlayEntry)}
    (hRange : ∀ xs, (range xs).Perm xs) {txID : Int64} {t : Transaction}
    (ht : o.getTxByID range txID = some t) :
    t.tid = txID ∧ (∃ tx, pool tx ∧ Writes tx ∧ StoredAs tx t) ∧
      (o.getDomain env.E t.domainName = some t ∨ o.real.getDomain env.E t.domainName = some t) := by
  unfold IndexOverlay.getTxByID at ht
  split at ht
  · rename_i found hFind
    obtain rfl := Option.some.inj ht
    obtain ⟨⟨d, entry⟩, he, hFilter⟩ := List.exists_of_findSome?_eq_some hFind
    obtain ⟨hTx, hTid⟩ := Option.filter_eq_some_iff.mp hFilter
    have hEntry : o.journal[d]? = some entry :=
      Std.ExtTreeMap.mem_toList_iff_getElem?_eq_some.mp ((hRange _).mem_iff.mp he)
    have hGet : o.getDomain env.E d = some found := by
      unfold IndexOverlay.getDomain
      rw [hEntry]
      exact hTx
    obtain ⟨tx, hPool, hWrites, -, hStored⟩ := h.pool_of_journal hEntry hTx
    have hd : d ∈ names :=
      h.keys d (Std.ExtTreeMap.mem_iff_isSome_getElem?.mpr (by rw [hEntry]; rfl))
    have hName := h.domainName_of_getDomain hNames hInj hd hGet
    exact ⟨of_decide_eq_true hTid, ⟨tx, hPool, hWrites, hStored⟩, .inl (hName ▸ hGet)⟩
  · obtain ⟨hTid, key, m, hSearch⟩ := AVLTree.search_of_findNodeByTxID _ ht
    obtain ⟨tx, hPool, hWrites, hHash, hStored⟩ := h.index.nodes key (t, m) hSearch
    refine ⟨hTid, ⟨tx, hPool, hWrites, hStored⟩, .inr ?_⟩
    rw [IndexManager.getDomain_eq, show t.domainName = tx.domainName from hStored.domainName, hHash,
      hSearch]
    rfl

end Traced

/-- The overlay of an accepted block. -/
theorem traced_of_stages {env : Env} {order : JournalOrder} {s : ChainState} {b : Block}
    {staged : Staged} {names : Set Bytes} {pool : Transaction → Prop}
    (hStages : Stages env order s b staged) (hIndex : IndexFrom env pool s.index)
    (hPool : ∀ tx ∈ b.transactions, pool tx)
    (hNames : ∀ tx ∈ b.transactions, tx.domainName ∈ names) :
    Traced env names pool staged.im ∧ staged.im.real = s.index := by
  obtain ⟨hJournal, hReal⟩ := journalFrom_of_stages hStages
  exact ⟨⟨hReal ▸ hIndex, hJournal.mono hPool, keysIn_of_stages hStages hNames⟩, hReal⟩

/-- A transaction of the index is found by its number, or another with this number is. -/
theorem getTxByID_isSome {E : External} (o : IndexOverlay)
    (range : List (Bytes × OverlayEntry) → List (Bytes × OverlayEntry)) {d : Bytes}
    {t : Transaction} (ht : o.real.getDomain E d = some t) : (o.getTxByID range t.tid).isSome := by
  rw [IndexManager.getDomain_eq] at ht
  obtain ⟨node, hSearch, rfl⟩ := Option.map_eq_some_iff.mp ht
  unfold IndexOverlay.getTxByID
  split
  · rfl
  · exact AVLTree.findNodeByTxID_of_search _ hSearch

/-- The index after an accepted block answers for a domain like the overlay. -/
theorem getDomain_installValidated {env : Env} {names : Set Bytes} {pool : Transaction → Prop}
    (order : JournalOrder) (txs : List Transaction) {staged : Staged} {s : ChainState}
    (h : Traced env names pool staged.im) (hReal : staged.im.real = s.index)
    (hInj : Set.InjOn env.E.sha256 names) {d : Bytes} (hd : d ∈ names) :
    (installValidated env order txs staged s).index.getDomain env.E d =
      staged.im.getDomain env.E d := by
  have hApart : ∀ d' ∈ staged.im.journal, hashDomain env.E d' = hashDomain env.E d → d' = d :=
    fun d' hd' hEq => hInj (h.keys d' hd') hd (hexEncode_injective hEq)
  have hSearch : (installValidated env order txs staged s).index.tree.search (hashDomain env.E d) =
      (staged.im.commit env.E (order.run txs.length) s.index).tree.search (hashDomain env.E d) :=
    search_commit_twice (order.perm _) (order.perm _) _ hApart
  rw [IndexManager.getDomain_eq, hSearch, IndexOverlay.search_commit _ (order.perm _) _ d hApart]
  unfold IndexOverlay.getDomain
  cases hEntry : staged.im.journal[d]? with
  | none => rw [hReal, IndexManager.getDomain_eq]
  | some entry =>
    dsimp only
    unfold IndexOverlay.installEntry
    cases hAdded : entry.addedTx with
    | some t => exact (tx_of_addedTx hAdded).symm
    | none =>
      rw [h.journal.unchanged d entry hEntry hAdded, hReal, IndexManager.getDomain_eq]
      dsimp only
      rw [Option.map_map]
      rfl

/-- What is spent after an accepted block. -/
theorem isSpent_installValidated {env : Env} {order : JournalOrder} {txs : List Transaction}
    {staged : Staged} {s : ChainState} (txID : Int64) :
    (installValidated env order txs staged s).index.isSpent txID =
      (s.index.isSpent txID || staged.im.pendingSpent txID) := by
  change (staged.im.commit env.E _ (staged.im.commit env.E _ s.index)).isSpent txID = _
  rw [IndexOverlay.isSpent_commit, IndexOverlay.isSpent_commit, Bool.or_assoc, Bool.or_self]

/-! ## One transaction and the entry of a domain -/

theorem redeemsOwnDomain_eq_true {pos : Position} {tx : Transaction} {st : DomainState} :
    redeemsOwnDomain pos tx st = true ↔
      ∃ found, st.im.getTxByID pos.range tx.redeemsTxID = some found ∧
        found.domainName = tx.domainName := by
  unfold redeemsOwnDomain
  rw [Option.any_eq_true]
  simp only [beq_iff_eq]

/-- Where numbers name domains, who redeems a transaction of the index finds the domain. -/
theorem Traced.redeemsOwnDomain {env : Env} {names : Set Bytes} {pool : Transaction → Prop}
    {pos : Position} {tx reg : Transaction} {st : DomainState} {d : Bytes}
    (h : Traced env names pool st.im) (hNames : ∀ tx, pool tx → tx.domainName ∈ names)
    (hInj : Set.InjOn env.E.sha256 names) (hTids : TidsNameDomains fun tx => pool tx ∧ Writes tx)
    (hRange : ∀ xs, (pos.range xs).Perm xs) (hReg : st.im.real.getDomain env.E d = some reg)
    (hRedeems : tx.redeemsTxID = reg.tid) (hName : reg.domainName = tx.domainName) :
    Blockchain.redeemsOwnDomain pos tx st = true := by
  rw [redeemsOwnDomain_eq_true, hRedeems]
  obtain ⟨found, hFound⟩ := Option.isSome_iff_exists.mp (getTxByID_isSome st.im pos.range hReg)
  obtain ⟨hTid, ⟨tx₁, hTx₁, hWrites₁, hStored₁⟩, -⟩ := h.of_getTxByID hNames hInj hRange hFound
  have hOld : Traced env names pool (.newIndexOverlay st.im.real) := .newIndexOverlay h.index
  obtain ⟨tx₂, hTx₂, hWrites₂, -, hStored₂⟩ := hOld.pool_of_getDomain hReg
  refine ⟨found, hFound, ?_⟩
  rw [hStored₁.domainName, hTids tx₁ tx₂ ⟨hTx₁, hWrites₁⟩ ⟨hTx₂, hWrites₂⟩
    (hStored₁.tid.symm.trans (hTid.trans hStored₂.tid)), ← hStored₂.domainName, hName]

/-- A transaction that has replaced the entry of its domain. -/
structure Replaces (E : External) (pos : Position) (tx : Transaction) (st st' : DomainState) :
    Prop where
  writes : Writes tx
  stored : ∃ t, st'.im.getDomain E tx.domainName = some t ∧ StoredAs tx t
  own : tx.type = .update ∨ tx.type = .renew ∨ tx.type = .revoke → tx.redeemsTxID ≠ 0 →
    redeemsOwnDomain pos tx st = true ∧ st'.im.pendingSpent tx.redeemsTxID = true

section Effect

variable {E : External} {pos : Position} {tx : Transaction} {st st' : DomainState}
  {err : Option Bytes}

theorem getDomain_keepOwner (o : IndexOverlay) (d : Bytes) (owner : Option Bytes) (d' : Bytes) :
    (keepOwner E d owner o).getDomain E d' = o.getDomain E d' := by
  cases owner with
  | none => rfl
  | some existingOwner => exact IndexOverlay.getDomain_setOwner ..

theorem getDomain_replaceDomain (isRenew : Bool) (d : Bytes) :
    (replaceDomain E pos tx st isRenew).im.getDomain E d =
      if tx.domainName = d then some (storeTx E tx st isRenew) else st.im.getDomain E d := by
  rw [im_replaceDomain, getDomain_keepOwner]
  unfold pricedDomain
  dsimp only
  split
  · rw [IndexOverlay.getDomain_setListPrice]
    exact IndexOverlay.getDomain_add ..
  · exact IndexOverlay.getDomain_add ..

theorem getDomain_revokeDomain (d : Bytes) :
    (revokeDomain E pos tx st).im.getDomain E d =
      if tx.domainName = d then some tx else st.im.getDomain E d := by
  have hSpent : (spentDomain tx st).getDomain E d = st.im.getDomain E d := by
    unfold spentDomain
    split <;> rfl
  rw [im_revokeDomain, getDomain_keepOwner, addDomain, IndexOverlay.getDomain_add]
  exact congrArg (fun t => if tx.domainName = d then some tx else t) hSpent

theorem pendingSpent_keepOwner (o : IndexOverlay) (d : Bytes) (owner : Option Bytes) :
    (keepOwner E d owner o).pendingSpent = o.pendingSpent := by
  cases owner <;> rfl

theorem pendingSpent_replaceDomain (isRenew : Bool) :
    (replaceDomain E pos tx st isRenew).im.pendingSpent =
      Function.update st.im.pendingSpent tx.redeemsTxID true := by
  rw [im_replaceDomain, pendingSpent_keepOwner]
  unfold pricedDomain
  dsimp only
  split <;> rfl

theorem pendingSpent_revokeDomain (hRedeems : tx.redeemsTxID ≠ 0) :
    (revokeDomain E pos tx st).im.pendingSpent =
      Function.update st.im.pendingSpent tx.redeemsTxID true := by
  rw [im_revokeDomain, pendingSpent_keepOwner]
  unfold addDomain spentDomain
  rw [if_pos hRedeems]
  rfl

theorem replaces_replaceDomain (hWrites : Writes tx) (hOwn : redeemsOwnDomain pos tx st = true)
    (isRenew : Bool) : Replaces E pos tx st (replaceDomain E pos tx st isRenew) := by
  refine ⟨hWrites, ⟨_, ?_, storedAs_storeTx E tx st isRenew⟩, fun _ _ => ⟨hOwn, ?_⟩⟩
  · rw [getDomain_replaceDomain, if_pos rfl]
  · rw [pendingSpent_replaceDomain, Function.update_self]

/-- A write that took effect. -/
theorem replaces_of_effect (hEffect : DomainEffect E pos tx st st' none) (hWrites : Writes tx) :
    Replaces E pos tx st st' := by
  cases hEffect with
  | skipped hType =>
    rcases hType with hType | hType | hType | hType | ⟨_, _, hType⟩ <;> simp_all [Writes]
  | committed hType | listed hType | delisted hType | bought hType | transferred hType =>
    simp_all [Writes]
  | registered hType =>
    refine ⟨hWrites, ⟨tx, ?_, storedAs_refl tx⟩, by simp [hType]⟩
    dsimp only
    rw [IndexOverlay.getDomain_setOwner, addDomain, IndexOverlay.getDomain_add, if_pos rfl]
  | revealed hType =>
    refine ⟨hWrites, ⟨tx, ?_, storedAs_refl tx⟩, by simp [hType]⟩
    dsimp only
    rw [IndexOverlay.getDomain_markAsSpent, IndexOverlay.getDomain_setOwner, addDomain,
      IndexOverlay.getDomain_add, if_pos rfl]
  | revoked hType _ hOwn =>
    refine ⟨hWrites, ⟨tx, ?_, storedAs_refl tx⟩, fun _ hRedeems => ?_⟩
    · rw [getDomain_revokeDomain, if_pos rfl]
    · rw [pendingSpent_revokeDomain hRedeems, Function.update_self]
      exact ⟨hOwn hRedeems, rfl⟩
  | updated _ _ _ _ hOwn | renewed _ _ _ hOwn => exact replaces_replaceDomain hWrites hOwn _

/-- Whatever is not a write of the domain leaves its entry alone. -/
theorem getDomain_of_effect (hEffect : DomainEffect E pos tx st st' err) {d : Bytes}
    (hOther : Writes tx → tx.domainName ≠ d) : st'.im.getDomain E d = st.im.getDomain E d := by
  cases hEffect with
  | failed | skipped | committed => rfl
  | registered hType =>
    dsimp only
    rw [IndexOverlay.getDomain_setOwner, addDomain, IndexOverlay.getDomain_add,
      if_neg (hOther (.inl hType))]
  | revealed hType =>
    dsimp only
    rw [IndexOverlay.getDomain_markAsSpent, IndexOverlay.getDomain_setOwner, addDomain,
      IndexOverlay.getDomain_add, if_neg (hOther (.inr (.inl hType)))]
  | revoked hType => rw [getDomain_revokeDomain, if_neg (hOther (.inr (.inr (.inl hType))))]
  | updated hType =>
    rw [getDomain_replaceDomain, if_neg (hOther (.inr (.inr (.inr (.inl hType)))))]
  | renewed hType =>
    rw [getDomain_replaceDomain, if_neg (hOther (.inr (.inr (.inr (.inr hType)))))]
  | listed | delisted => exact IndexOverlay.getDomain_setListPrice ..
  | bought | transferred =>
    exact (IndexOverlay.getDomain_setListPrice ..).trans (IndexOverlay.getDomain_setOwner ..)

/-- A transaction leaves the entry of a domain alone, or it is of the domain and replaces the
entry. -/
theorem entry_of_effect (hEffect : DomainEffect E pos tx st st' err) (d : Bytes) :
    st'.im.getDomain E d = st.im.getDomain E d ∨
      tx.domainName = d ∧ Replaces E pos tx st st' := by
  by_cases hOther : Writes tx → tx.domainName ≠ d
  · exact .inl (getDomain_of_effect hEffect hOther)
  · obtain ⟨hWrites, hName⟩ := Classical.not_imp.mp hOther
    cases err with
    | some text =>
      obtain rfl := hEffect.eq_of_some
      exact .inl rfl
    | none => exact .inr ⟨not_not.mp hName, replaces_of_effect hEffect hWrites⟩

/-- What is spent stays spent. -/
theorem pendingSpent_of_effect (hEffect : DomainEffect E pos tx st st' err) {txID : Int64}
    (h : st.im.pendingSpent txID = true) : st'.im.pendingSpent txID = true := by
  have hUpdate : Function.update st.im.pendingSpent tx.redeemsTxID true txID = true := by
    rw [Function.update_apply]
    split
    · rfl
    · exact h
  cases hEffect with
  | revealed => exact hUpdate
  | revoked =>
    by_cases hRedeems : tx.redeemsTxID ≠ 0
    · rw [pendingSpent_revokeDomain hRedeems]
      exact hUpdate
    · rw [im_revokeDomain, pendingSpent_keepOwner]
      unfold addDomain spentDomain
      rw [if_neg hRedeems]
      exact h
  | updated | renewed =>
    rw [pendingSpent_replaceDomain]
    exact hUpdate
  | _ => exact h

end Effect

end Bdns.Safety
